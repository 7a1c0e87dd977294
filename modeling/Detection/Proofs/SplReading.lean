import Detection.Proofs.QuotedReading

/-!
# Searches are read as they are written

A comparison of a search is a field name, a symbol and a literal, and each of the three
ends where the next one begins. A literal stands for the value that it was written for:
a number for itself, and a text between quotes for what was escaped in it.
-/
namespace Detection

open Text Lexer Dialect

variable {name rest symbol text : List Char} {operator : Operator} {value : Value} {c : Char}

/-- A character of a class without white space is none. -/
theorem isSpace_of_class (accepts : Char → Bool)
    (apart : [' ', '\t', '\n', '\r', '\x0c'].any accepts = false) (inside : accepts c = true) :
    isSpace c = false := by
  rw [Bool.eq_false_iff]
  intro space
  have listed : c ∈ [' ', '\t', '\n', '\r', '\x0c'] := by
    simpa [isSpace, isGap, or_assoc] using space
  exact List.any_eq_false.mp apart c listed inside

namespace Spl

/-- The characters behind the first one of a field name. -/
def continuesName (c : Char) : Bool :=
  Dialect.isNameStart c || c.isDigit || c == '.' || c == '-'

/-- A field name of a search: a letter or an underscore, then letters, digits,
underscores, points and hyphens. The words for the connectives are no field names. -/
structure IsName (name : List Char) : Prop where
  shape : ∃ first others, name = first :: others ∧ Dialect.isNameStart first = true ∧
    ∀ c ∈ others, continuesName c = true
  free : name ≠ ['A', 'N', 'D'] ∧ name ≠ ['O', 'R'] ∧ name ≠ ['N', 'O', 'T']

instance : DecidablePred IsName := fun name =>
  decidable_of_iff ((name.head?.any Dialect.isNameStart = true ∧
      name.tail.all continuesName = true) ∧
      name ≠ ['A', 'N', 'D'] ∧ name ≠ ['O', 'R'] ∧ name ≠ ['N', 'O', 'T']) <| by
    constructor
    · rintro ⟨⟨starts, inside⟩, free⟩
      cases name with
      | nil => contradiction
      | cons first others =>
        exact ⟨⟨first, others, rfl, starts, List.all_eq_true.mp inside⟩, free⟩
    · rintro ⟨⟨first, others, rfl, starts, inside⟩, free⟩
      exact ⟨⟨starts, List.all_eq_true.mpr inside⟩, free⟩

/-- What ends a name: the end of the text or a character that cannot continue it. -/
def EndsName (rest : List Char) : Prop := ∀ c ∈ rest.head?, continuesName c = false

/-- A field name as its letters alone decide it. In front of a symbol also the words for the
connectives are field names. -/
def IsField (name : List Char) : Prop :=
  ∃ first others, name = first :: others ∧ Dialect.isNameStart first = true ∧
    ∀ c ∈ others, continuesName c = true

theorem IsName.isField (isName : IsName name) : IsField name := isName.shape

theorem IsField.continues (isField : IsField name) : ∀ c ∈ name, continuesName c = true := by
  obtain ⟨first, others, rfl, starts, inside⟩ := isField
  exact List.forall_mem_cons.mpr ⟨by simp [continuesName, starts], inside⟩

theorem IsName.continues (isName : IsName name) :
    ∀ c ∈ name, continuesName c = true := isName.isField.continues

theorem isSpace_of_continues (inside : continuesName c = true) :
    isSpace c = false ∧ c ≠ '(' ∧ c ≠ ')' := by
  refine ⟨isSpace_of_class continuesName rfl inside, ?_, ?_⟩
  all_goals
    rintro rfl
    contradiction

theorem field_append (isField : IsField name) (ends : EndsName rest) :
    dialect.field (name ++ rest) = some (name, rest) := by
  obtain ⟨first, others, rfl, starts, inside⟩ := isField
  exact name_append starts inside ends

/-- A word of letters that stands at the beginning of a name is a beginning of it. -/
theorem wordRest_name {word after : List Char} (letters : ∀ c ∈ word, continuesName c = true)
    (ends : EndsName rest) (found : wordRest? false word (name ++ rest) = some after) :
    ∃ others, name = word ++ others ∧ after = others ++ rest := by
  induction word generalizing name with
  | nil => exact ⟨name, rfl, by simpa [wordRest?] using found.symm⟩
  | cons letter word ih =>
    have own : continuesName letter = true := letters letter List.mem_cons_self
    have visible : letter ≠ ' ' := by
      rintro rfl
      exact absurd own (by decide)
    cases name with
    | nil =>
      cases rest with
      | nil => simp [wordRest?] at found
      | cons c others =>
        have differs : c ≠ letter := by
          rintro rfl
          rw [ends c rfl] at own
          contradiction
        simp [wordRest?, differs] at found
    | cons c others =>
      by_cases same : c = letter
      · subst same
        have tail : wordRest? false word (others ++ rest) = some after := by
          simpa [wordRest?, visible] using found
        obtain ⟨more, rfl, rfl⟩ := ih
          (fun c belongs => letters c (List.mem_cons_of_mem _ belongs)) tail
        exact ⟨more, rfl, rfl⟩
      · simp [wordRest?, same] at found

/-- No connective is read where a field name stands, unless the name is a connective with white
space, a parenthesis or nothing behind it. A name may begin with the letters of a connective,
but then a letter follows them. -/
theorem connective_none (isField : IsField name) (ends : EndsName rest)
    (free : ∀ entry ∈ dialect.connectives, name = entry.1.toList →
      (rest.head?.all fun c => isSpace c || c == '(') = false) :
    dialect.connective? (name ++ rest) = none := by
  have refused (word : List Char) (letters : ∀ c ∈ word, continuesName c = true)
      (free : name = word → (rest.head?.all fun c => isSpace c || c == '(') = false)
      (after : List Char) (found : wordRest? false word (name ++ rest) = some after) :
      (after.head?.all fun c => isSpace c || c == '(') = false := by
    obtain ⟨more, rfl, rfl⟩ := wordRest_name letters ends found
    cases more with
    | nil => exact free (List.append_nil word)
    | cons c =>
      obtain ⟨space, opening, _⟩ := isSpace_of_continues (isField.continues c (by simp))
      simp [space, opening]
  have letters (entry : String × Token) (member : entry ∈ dialect.connectives) :
      ∀ c ∈ entry.1.toList, continuesName c = true := by
    have listed : dialect.connectives = [("OR", .or), ("NOT", .not), ("AND", .and)] := rfl
    simp only [listed, List.mem_cons, List.not_mem_nil, or_false] at member
    rcases member with rfl | rfl | rfl <;> exact List.all_eq_true.mp rfl
  rw [connective?, List.findSome?_eq_none_iff]
  intro entry member
  have exact : dialect.foldConnectives = false := rfl
  cases found : wordRest? false entry.1.toList (name ++ rest) with
  | none => simp [exact, found]
  | some after =>
    simp [exact, found, refused _ (letters entry member) (free entry member) after found]

theorem connective_name (isName : IsName name) (ends : EndsName rest) :
    dialect.connective? (name ++ rest) = none := by
  refine connective_none isName.isField ends fun entry member same => absurd same ?_
  have listed : dialect.connectives = [("OR", .or), ("NOT", .not), ("AND", .and)] := rfl
  simp only [listed, List.mem_cons, List.not_mem_nil, or_false] at member
  rcases member with rfl | rfl | rfl
  · exact isName.free.2.1
  · exact isName.free.2.2
  · exact isName.free.1

/-- The symbols of comparisons with a single value. -/
def symbolOf? : Operator → Option (List Char)
  | .eq => some ['=']
  | .neq => some ['!', '=']
  | .lt => some ['<']
  | .lte => some ['<', '=']
  | .gt => some ['>']
  | .gte => some ['>', '=']
  | _ => none

/-- A literal of a search and the value that it stands for, in a list or alone. -/
structure Denotes (text : List Char) (value : Value) : Prop where
  starts : ∃ c others, text = c :: others ∧ isSpace c = false ∧ c ≠ '=' ∧ c ≠ ')'
  reads : ∀ inList rest, Dialect.atBoundary inList rest = true →
    dialect.scalar inList (text ++ rest) = .ok (some (⟨value, false⟩, rest))

/-- A name, a symbol and a value are told apart. -/
theorem head_symbol (isField : IsField name) (written : symbolOf? operator = some symbol)
    (visible : isSpace c = false) (ends : c ≠ '=') :
    dialect.head? (name ++ (symbol ++ c :: rest)) = some ⟨name, symbol, c :: rest⟩ := by
  have told : EndsName (symbol ++ c :: rest) ∧
      (symbol ++ c :: rest).dropWhile isSpace = symbol ++ c :: rest ∧
      dialect.symbolAfter? false (symbol ++ c :: rest) = some (symbol, c :: rest) := by
    have longer : '=' ≠ c := ends.symm
    cases operator <;> simp only [symbolOf?, Option.some.injEq, reduceCtorEq] at written <;>
      subst written <;>
      exact ⟨by simp [EndsName, continuesName, isNameStart], rfl,
        by simp [symbolAfter?, dialect, commonComparisons,
          OperatorSpelling.isWord, List.isPrefixOf?, longer]⟩
  obtain ⟨outside, gapless, found⟩ := told
  simp [head?, field_append isField outside, gapless, found, visible]

/-- The symbol of an operator has its spelling in the table. -/
theorem spellingOf_symbol (written : symbolOf? operator = some symbol) :
    dialect.spellingOf symbol = ⟨String.ofList symbol, operator, false, none⟩ := by
  cases operator <;> simp only [symbolOf?, Option.some.injEq, reduceCtorEq] at written <;>
    subst written <;> rfl

/-- A name with something behind it is read as a comparison, if it can be. -/
theorem readsAs_comparison {tail : List Char} (isField : IsField name)
    (unconnected : ∀ rest, dialect.connective? (name ++ (tail ++ rest)) = none)
    {tokens : List Token} (compared : ∀ rest, atBoundary false rest = true →
      dialect.comparison? (name ++ (tail ++ rest)) = .ok (some (tokens, rest))) :
    dialect.ReadsAs (name ++ tail) tokens := by
  intro rest others boundary read
  have found := compared rest boundary
  have free := unconnected rest
  have inside := isField.continues
  obtain ⟨first, letters, rfl, _⟩ := isField
  obtain ⟨space, opening, closing⟩ := isSpace_of_continues (inside first List.mem_cons_self)
  have visible : isGap first = false := by
    simp only [isSpace, Bool.or_eq_false_iff] at space
    exact space.1
  have stepped : dialect.step (first :: (letters ++ (tail ++ rest))) = .ok (tokens, rest) := by
    rw [step]
    · rw [List.cons_append] at free found
      simp only [free, found]
      rfl
    · intro behind same
      exact opening (List.cons.inj same).1
    · intro behind same
      exact closing (List.cons.inj same).1
  have whole := tokensFrom_step visible stepped (by simp; omega) read
  simpa using whole

/-- A comparison with a single value is read. The symbol tells the name from a connective. -/
theorem readsAs_symbol (isField : IsField name) (written : symbolOf? operator = some symbol)
    (denotes : Denotes text value) :
    dialect.ReadsAs (name ++ (symbol ++ text)) (comparison name operator "*" value) := by
  obtain ⟨c, others, rfl, visible, apart, _⟩ := denotes.starts
  have parted : ∃ mark marks, symbol = mark :: marks ∧ continuesName mark = false ∧
      (isSpace mark || mark == '(') = false := by
    cases operator <;> simp only [symbolOf?, Option.some.injEq, reduceCtorEq] at written <;>
      subst written <;> exact ⟨_, _, rfl, rfl, rfl⟩
  have unconnected (rest : List Char) :
      dialect.connective? (name ++ (symbol ++ c :: others ++ rest)) = none := by
    obtain ⟨mark, marks, rfl, outside, visible⟩ := parted
    exact connective_none isField (by simpa [EndsName] using outside)
      fun _ _ _ => by simpa using visible
  refine readsAs_comparison isField unconnected fun rest boundary => ?_
  have head : dialect.head? (name ++ (symbol ++ c :: (others ++ rest))) =
      some ⟨name, symbol, c :: (others ++ rest)⟩ := head_symbol isField written visible apart
  have read := denotes.reads false rest boundary
  rw [List.cons_append] at read
  rw [List.append_assoc, List.cons_append, comparison?, head]
  simp only [spellingOf_symbol written, read]
  rfl

/-- A comparison of a name with a single value is read. -/
theorem readsAs_scalar (isName : IsName name) (written : symbolOf? operator = some symbol)
    (denotes : Denotes text value) :
    dialect.ReadsAs (name ++ (symbol ++ text)) (comparison name operator "*" value) :=
  readsAs_symbol isName.isField written denotes

/-- One value of a list, with white space in front of it, and what stands behind it. -/
theorem listItems_value (denotes : Denotes text value) (gap : List Char)
    (blank : ∀ c ∈ gap, isGap c = true) (items : List Value) (c : Char) (rest : List Char)
    (ends : c = ')' ∨ c = ',') :
    dialect.listItems items (gap ++ (text ++ c :: rest)) =
      if c = ')' then .ok (items ++ [value], rest)
      else dialect.listItems (items ++ [value]) rest := by
  have boundary : atBoundary true (c :: rest) = true := by
    rcases ends with rfl | rfl <;> rfl
  have read := denotes.reads true (c :: rest) boundary
  obtain ⟨first, others, rfl, visible, _, apart⟩ := denotes.starts
  have gapless : isGap first = false := by
    simp only [isSpace, Bool.or_eq_false_iff] at visible
    exact visible.1
  have start : (gap ++ (first :: others ++ c :: rest)).dropWhile isGap =
      first :: (others ++ c :: rest) := by
    rw [List.dropWhile_append_of_pos blank]
    exact List.dropWhile_cons_of_neg (by simp [gapless])
  have shorter : rest.length < (gap ++ (first :: others ++ c :: rest)).length := by
    simp only [List.length_append, List.length_cons]
    omega
  rw [listItems, start]
  rw [List.cons_append] at read
  split
  · next behind same => exact absurd (List.cons.inj same).1 apart
  · rw [read]
    rcases ends with rfl | rfl
    · rfl
    · exact if_pos shorter

/-- The values of a list are read one after another. -/
theorem listItems_join {parts : List String} {values : List Value}
    (denote : List.Forall₂ (fun part value => Denotes part.toList value) parts values)
    (some : parts ≠ []) (gap : List Char) (blank : ∀ c ∈ gap, isGap c = true)
    (items : List Value) (rest : List Char) :
    dialect.listItems items (gap ++ ((join ", " parts).toList ++ ')' :: rest)) =
      .ok (items ++ values, rest) := by
  induction denote generalizing gap items with
  | nil => contradiction
  | @cons part value parts values denotes denote ih =>
    cases denote with
    | nil => simpa [join] using listItems_value denotes gap blank items ')' rest (.inl rfl)
    | @cons next other parts values nextDenotes denote =>
      have later := ih (List.cons_ne_nil _ _) [' '] (by simp [isGap])
        (items ++ [value])
      have first := listItems_value denotes gap blank items ','
        (' ' :: ((join ", " (next :: parts)).toList ++ ')' :: rest)) (.inr rfl)
      simp only [Char.reduceEq, ↓reduceIte] at first
      rw [List.singleton_append] at later
      rw [later] at first
      simpa [join] using first

/-- A name, the word for lists and the parenthesis behind it are told apart. -/
theorem head_list (isName : IsName name) (rest : List Char) :
    dialect.head? (name ++ ' ' :: 'I' :: 'N' :: ' ' :: '(' :: rest) =
      some ⟨name, ['I', 'N'], '(' :: rest⟩ := by
  have outside : EndsName (' ' :: 'I' :: 'N' :: ' ' :: '(' :: rest) := by
    simp [EndsName, continuesName, isNameStart]
  have word : wholeWord? true ['i', 'n'] ('I' :: 'N' :: ' ' :: '(' :: rest) =
      some (['I', 'N'], ' ' :: '(' :: rest) := by
    have behind : wordRest? true ['i', 'n'] ('I' :: 'N' :: ' ' :: '(' :: rest) =
        some (' ' :: '(' :: rest) := by
      rfl
    have length : ('I' :: 'N' :: ' ' :: '(' :: rest).length - (' ' :: '(' :: rest).length = 2 := by
      simp only [List.length_cons]
      omega
    simp only [wholeWord?, behind, length]
    rfl
  have found : dialect.symbolAfter? true ('I' :: 'N' :: ' ' :: '(' :: rest) =
      some (['I', 'N'], ' ' :: '(' :: rest) := by
    have first : dialect.operators.head? = some ⟨"in", .eq, true, none⟩ := rfl
    obtain ⟨others, operators⟩ := List.head?_eq_some_iff.mp first
    have isWord : OperatorSpelling.isWord ⟨"in", .eq, true, none⟩ = true := rfl
    have fold : dialect.foldOperators = true := rfl
    have letters : "in".toList = ['i', 'n'] := rfl
    simp only [symbolAfter?, operators, List.findSome?_cons, isWord, ↓reduceIte, fold,
      letters, word]
  have blank : (' ' :: 'I' :: 'N' :: ' ' :: '(' :: rest).dropWhile isSpace =
      'I' :: 'N' :: ' ' :: '(' :: rest := rfl
  have spaced : ('I' :: 'N' :: ' ' :: '(' :: rest).length <
      (' ' :: 'I' :: 'N' :: ' ' :: '(' :: rest).length := by simp
  simp only [head?, field_append isName.isField outside, blank, spaced, decide_true, found]
  rfl

/-- A comparison with a list is read. -/
theorem readsAs_oneOf (isName : IsName name) {parts : List String} {values : List Value}
    (denote : List.Forall₂ (fun part value => Denotes part.toList value) parts values)
    (some : parts ≠ []) :
    dialect.ReadsAs (name ++ (" IN (" ++ join ", " parts ++ ")").toList)
      (comparison name .eq "*" (.list values)) := by
  have text : (" IN (" ++ join ", " parts ++ ")").toList =
      ' ' :: 'I' :: 'N' :: ' ' :: '(' :: ((join ", " parts).toList ++ [')']) := by
    simp
  rw [text]
  have unconnected (rest : List Char) : dialect.connective? (name ++
      (' ' :: 'I' :: 'N' :: ' ' :: '(' :: ((join ", " parts).toList ++ [')']) ++ rest)) = none :=
    connective_name isName (by simp [EndsName, continuesName, isNameStart])
  refine readsAs_comparison isName.isField unconnected fun rest _ => ?_
  have head := head_list isName ((join ", " parts).toList ++ [')'] ++ rest)
  have spelling : dialect.spellingOf ['I', 'N'] = ⟨"in", .eq, true, none⟩ := rfl
  have items : dialect.listItems [] ((join ", " parts).toList ++ [')'] ++ rest) =
      .ok (values, rest) := by
    simpa using listItems_join denote some [] (by simp) [] rest
  simp only [List.cons_append] at head ⊢
  rw [comparison?, head]
  simp only [spelling, ↓reduceIte, list, items]
  rfl

/-- A literal that is recognised stands for its value. -/
theorem scalar_of_literal {inList : Bool}
    (found : dialect.literal? inList text = some (⟨value, false⟩, rest)) :
    dialect.scalar inList text = .ok (some (⟨value, false⟩, rest)) := by
  simp only [Dialect.scalar, found]

/-- A text between quotes stands for what was escaped in it. -/
theorem denotes_quoted (content : List Char) :
    Denotes ('"' :: (escaping.escapeChars .doubleQuoted content ++ ['"']))
      (.text (String.ofList content)) := by
  refine ⟨⟨'"', _, rfl, rfl, by decide, by decide⟩, fun inList rest boundary => ?_⟩
  have ends : ∀ c ∈ rest.head?, c ≠ '"' := by
    rintro c first rfl
    obtain ⟨others, rfl⟩ := List.head?_eq_some_iff.mp first
    contradiction
  rw [List.cons_append, List.append_assoc]
  exact scalar_escaped (.double rfl) (by rintro _ ⟨⟩; rfl) protects_double content ends
    inList

theorem denotes_star : Denotes ['*'] (.text "*") := by
  refine ⟨⟨'*', _, rfl, rfl, by decide, by decide⟩, fun inList rest boundary => ?_⟩
  have ends : ∀ c ∈ rest.head?, isBare c = false := by
    cases rest with
    | nil => simp
    | cons =>
      simp only [atBoundary, Bool.or_eq_true, beq_iff_eq, Bool.and_eq_true] at boundary
      simp only [List.head?_cons, Option.mem_some_iff, forall_eq']
      rcases boundary with (space | rfl) | ⟨rfl, _⟩
      · simp [isBare, isSpace, space]
      · rfl
      · rfl
  have span : spanOf isBare (['*'] ++ rest) = (['*'], rest) :=
    spanOf_append (List.all_eq_true.mp rfl) ends
  have word : dialect.bareWord? inList (['*'] ++ rest) = some (['*'], rest) := by
    simp only [bareWord?, show dialect.bare? = some isBare from rfl, span, boundary]
    rfl
  apply scalar_of_literal
  simp only [literal?, word]
  rfl

/-- Digits with a minus sign in front of them or not, and with a fraction or not. -/
def IsDecimal (lexeme : List Char) : Prop :=
  ∃ sign whole places, lexeme = sign ++ (whole ++ places) ∧ (sign = [] ∨ sign = ['-']) ∧
    whole ≠ [] ∧ (∀ c ∈ whole, c.isDigit = true) ∧
    (places = [] ∨ ∃ digits, places = '.' :: digits ∧ digits ≠ [] ∧ ∀ c ∈ digits, c.isDigit = true)

/-- What follows a number at a boundary neither continues its digits nor is a point. -/
theorem boundary_digit {inList : Bool} (boundary : atBoundary inList rest = true) :
    ∀ c ∈ rest.head?, c.isDigit = false ∧ c ≠ '.' := by
  cases rest with
  | nil => simp
  | cons c others =>
    simp only [atBoundary, isGap, Bool.or_eq_true, beq_iff_eq, Bool.and_eq_true] at boundary
    simp only [List.head?_cons, Option.mem_some_iff, forall_eq']
    rcases boundary with ((((rfl | rfl) | rfl) | rfl) | rfl) | ⟨rfl, _⟩ <;> decide

/-- An optional fraction is recognised in front of a boundary. -/
theorem fraction_append {places : List Char} (shape : places = [] ∨
      ∃ digits, places = '.' :: digits ∧ digits ≠ [] ∧ ∀ c ∈ digits, c.isDigit = true)
    (ends : ∀ c ∈ rest.head?, c.isDigit = false ∧ c ≠ '.') :
    fraction (places ++ rest) = (places, rest) := by
  rcases shape with rfl | ⟨digits, rfl, some, inside⟩
  · cases rest with
    | nil => rfl
    | cons c =>
      have other : c ≠ '.' := (ends c rfl).2
      simp [fraction, other]
  · have span := spanOf_append inside fun c first => (ends c first).1
    simp [fraction, span, some]

/-- A number is recognised in front of a boundary. -/
theorem number_append {lexeme : List Char} (decimal : IsDecimal lexeme)
    (ends : ∀ c ∈ rest.head?, c.isDigit = false ∧ c ≠ '.') :
    number? (lexeme ++ rest) = some (lexeme, rest) := by
  obtain ⟨sign, whole, places, rfl, signs, some, inside, shape⟩ := decimal
  have stops : ∀ c ∈ (places ++ rest).head?, c.isDigit = false := by
    rcases shape with rfl | ⟨digits, rfl, _⟩
    · exact fun c first => (ends c first).1
    · simp
  have unsigned : unsigned? (whole ++ (places ++ rest)) = Option.some (whole ++ places, rest) := by
    simp [unsigned?, spanOf_append inside stops, fraction_append shape ends, some]
  rcases signs with rfl | rfl
  · obtain ⟨digit, digits, rfl⟩ := List.exists_cons_of_ne_nil some
    have positive : digit ≠ '-' := by
      rintro rfl
      exact absurd (inside '-' List.mem_cons_self) (by decide)
    simpa [number?, positive] using unsigned
  · simp [number?, unsigned]

/-- A number starts with a digit or with its sign. -/
theorem IsDecimal.starts {lexeme : List Char} (decimal : IsDecimal lexeme) :
    ∃ c others, lexeme = c :: others ∧ isSpace c = false ∧ c ≠ '=' ∧ c ≠ ')' := by
  obtain ⟨sign, whole, places, rfl, rfl | rfl, some, inside, _⟩ := decimal
  · obtain ⟨digit, digits, rfl⟩ := List.exists_cons_of_ne_nil some
    have own : digit.isDigit = true := inside digit List.mem_cons_self
    refine ⟨digit, _, rfl, isSpace_of_class Char.isDigit rfl own, ?_, ?_⟩
    all_goals
      rintro rfl
      contradiction
  · exact ⟨'-', _, rfl, rfl, by decide, by decide⟩

/-- A number stands for itself. -/
theorem denotes_number {lexeme : String} (decimal : IsDecimal lexeme.toList)
    (accepted : Value.ofNumeral lexeme = .ok (.number lexeme)) :
    Denotes lexeme.toList (.number lexeme) := by
  refine ⟨decimal.starts, fun inList rest boundary => ?_⟩
  have found := number_append decimal (boundary_digit boundary)
  have number : numberLiteral? inList (lexeme.toList ++ rest) =
      some (⟨.number lexeme, false⟩, rest) := by
    simp [numberLiteral?, found, boundary, accepted]
  apply scalar_of_literal
  simp only [literal?, number]
  rfl

end Spl

end Detection

import Detection.Language.Aql
import Detection.Language.LogScale
import Detection.Language.Spl
import Detection.Proofs.Escaping
import Detection.Proofs.TextReading

/-!
# Quoted texts are read without loss

An equality of a field with a text between quotes is read back whatever the text is. Two things
make that true in each language. The lexer comes to the quoted text: nothing in front of it is
taken for a connective or for another operator, and none of the forms that are tried first
begins with a quote. And the escapes of the language fit its quotes: the escaped text ends at
the quote that was written behind it, and unescaping undoes escaping.

Both are said for any language first, and then of the languages that are read.
-/
namespace Detection

open Text Lexer

/-- Only an inequality may stand for its complement. -/
theorem negate_promoteWildcards {operator : Operator} (positive : operator ≠ .neq)
    (text wildcard : List Char) : (promoteWildcards operator text wildcard).negate = false := by
  simp only [promoteWildcards]
  split
  · rfl
  · split
    · rfl
    · split <;> simp [positive]

/-- The characters of a plain name behind the first one. -/
def continuesPlain (c : Char) : Bool :=
  Dialect.isNameStart c || c.isDigit || c == '.'

/-- A plain name: a letter of ASCII or an underscore, then letters, digits, underscores and
points. Every language takes it for a field name. -/
def IsPlainName (name : List Char) : Prop :=
  ∃ first others, name = first :: others ∧ Dialect.isNameStart first = true ∧
    ∀ c ∈ others, continuesPlain c = true

namespace IsPlainName

variable {name : List Char}

theorem continues (plain : IsPlainName name) : ∀ c ∈ name, continuesPlain c = true := by
  obtain ⟨first, others, rfl, starts, inside⟩ := plain
  exact List.forall_mem_cons.mpr ⟨by simp [continuesPlain, starts], inside⟩

/-- White space, parentheses and quotes are no part of a plain name, in any letter case. -/
theorem apart (plain : IsPlainName name) :
    ∀ c ∈ name, isSpace c = false ∧ foldKey c ≠ foldKey '(' ∧ c ≠ ')' ∧ c ≠ '"' := by
  have codes : ∀ c : Char, c.toNat < 128 → continuesPlain c = true →
      isSpace c = false ∧ foldKey c ≠ foldKey '(' ∧ c ≠ ')' ∧ c ≠ '"' :=
    forall_ascii (by decide)
  intro c own
  have inside := plain.continues c own
  refine codes c ?_ inside
  by_cases other : c ∈ ['_', '.']
  · rcases List.mem_pair.mp other with rfl | rfl <;> decide
  · refine ascii_of_isAlphanum ?_
    simp only [List.mem_cons, List.not_mem_nil, or_false, not_or] at other
    simpa [continuesPlain, Dialect.isNameStart, Char.isAlphanum, other] using inside

/-- A plain name is found in front of a sign by every class of names that holds it. -/
theorem name_eq (plain : IsPlainName name) {starts continues : Char → Bool}
    (first : ∀ c, Dialect.isNameStart c = true → starts c = true)
    (others : ∀ c, continuesPlain c = true → continues c = true)
    (stops : continues '=' = false) (tail : List Char) :
    name? starts continues (name ++ '=' :: tail) = some (name, '=' :: tail) := by
  obtain ⟨head, rest, rfl, begins, inside⟩ := plain
  exact name_append (first head begins) (fun c own => others c (inside c own))
    (by simpa using stops)

/-- A word that is found at a name with a sign behind it is found in the name. -/
theorem exists_of_wordRest {fold : Bool} {word tail rest : List Char} (solid : ' ' ∉ word)
    (unsigned : foldKey '=' ∉ word.map foldKey)
    (found : wordRest? fold word (name ++ '=' :: tail) = some rest) :
    ∃ taken more, name = taken ++ more ∧ rest = more ++ '=' :: tail ∧
      taken.map foldKey = word.map foldKey := by
  obtain ⟨taken, split, folded⟩ := wordRest_taken solid found
  rcases List.append_eq_append_iff.mp split with ⟨more, rfl, behind⟩ | ⟨more, rfl, behind⟩
  · cases more with
    | nil => exact ⟨name, [], by simp, by simpa using behind.symm, by simpa using folded⟩
    | cons =>
      obtain ⟨rfl, _⟩ := List.cons.inj behind
      exact absurd (folded ▸ by simp) unsigned
  · exact ⟨taken, more, rfl, behind, folded⟩

end IsPlainName

namespace Dialect

/-- A language in which a plain name, the sign of equality and what follows are told apart. -/
structure Equates (dialect : Dialect) : Prop where
  field : ∀ name tail, IsPlainName name →
    dialect.field (name ++ '=' :: tail) = some (name, '=' :: tail)
  symbol : ∀ tail, dialect.symbolAfter? false ('=' :: tail) = some (['='], tail)
  spelling : dialect.spellingOf ['='] = ⟨"=", .eq, false, none⟩
  connectives : ∀ entry ∈ dialect.connectives,
    ' ' ∉ entry.1.toList ∧ foldKey '=' ∉ entry.1.toList.map foldKey

/-- The marks between which a language has texts, with how the texts protect them and what kind
of literal they are. -/
inductive Quotes (dialect : Dialect) : Char → Quoting → LiteralKind → Prop
  | double (allowed : dialect.doubleQuotes = true) : Quotes dialect '"' .escaped .doubleQuoted
  | single {quoting : Quoting} (allowed : dialect.singleQuotes? = some quoting) :
    Quotes dialect '\'' quoting .singleQuoted

variable {dialect : Dialect} {mark : Char} {quoting : Quoting} {kind : LiteralKind}

/-- A text between quotes is read as such: none of the forms that are tried before it begins with
a quote. -/
theorem scalar_quoted (quotes : dialect.Quotes mark quoting kind)
    (outside : ∀ accepts ∈ dialect.bare?, accepts mark = false) {text body rest : List Char}
    (found : quoted? mark quoting (mark :: text) = some (body, rest)) (inList : Bool) :
    dialect.scalar inList (mark :: text) =
      .ok (some (⟨.text (String.ofList (dialect.escaping.unescapeChars kind body)), false⟩,
        rest)) := by
  have bare : dialect.bareWord? inList (mark :: text) = none := by
    cases known : dialect.bare? with
    | none => simp [bareWord?, known]
    | some accepts =>
      have refused : accepts mark = false := outside accepts known
      simp [bareWord?, known, spanOf, refused]
  cases quotes with
  | double allowed =>
    have regex : dialect.regexLiteral? inList ('"' :: text) = none := by
      simp [regexLiteral?, slashed?, quoted?]
    have number : numberLiteral? inList ('"' :: text) = none := rfl
    simp [scalar, literal?, regex, number, bare, doubleQuoted?, allowed, found]
  | single allowed =>
    have regex : dialect.regexLiteral? inList ('\'' :: text) = none := by
      simp [regexLiteral?, slashed?, quoted?]
    have number : numberLiteral? inList ('\'' :: text) = none := rfl
    have double : dialect.doubleQuoted? ('\'' :: text) = none := by
      simp [doubleQuoted?, quoted?]
    simp [scalar, literal?, regex, number, bare, double, singleQuoted?, allowed, found]

end Dialect

namespace EscapeRule

/-- A text with its marks doubled ends at the mark behind it, unless one more follows. -/
theorem doubledBody_apply_doubled (mark : Char) (undone : Bool) (text : List Char)
    {rest : List Char} (ends : ∀ c ∈ rest.head?, c ≠ mark) :
    doubledBody? mark ((doubled mark undone).apply text ++ mark :: rest) =
      some ((doubled mark undone).apply text, rest) := by
  have stop : doubledBody? mark (mark :: rest) = some ([], rest) := by
    cases rest with
    | nil => simp [doubledBody?]
    | cons c =>
      have other : c ≠ mark := ends c rfl
      simp [doubledBody?, other]
  refine read_flatMap ?_ stop text
  intro c others body behind read
  by_cases same : c = mark
  · simp [doubledBody?, same, read]
  · rw [if_neg (by simpa using same), List.singleton_append, doubledBody?.eq_def]
    simp [same, read]

/-- Reading every pair as one undoes the doubling. -/
theorem undo_apply_doubled (mark : Char) (text : List Char) :
    (doubled mark true).undo ((doubled mark true).apply text) = text := by
  change undouble mark (text.flatMap fun c => if c == mark then [c, c] else [c]) = text
  induction text with
  | nil => rfl
  | cons c rest ih =>
    rw [List.flatMap_cons]
    generalize rest.flatMap (fun c => if c == mark then [c, c] else [c]) = others
      at ih
    by_cases same : c = mark
    · simp [undouble, same, ih]
    · rw [if_neg (by simpa using same), List.singleton_append]
      cases others with
      | nil => simpa [undouble] using ih
      | cons => simp [undouble, same, ih]

end EscapeRule

namespace Escaping

/-- The escapes of a kind of literal fit a mark: an escaped text ends at the mark behind it unless
one more follows, and unescaping undoes escaping. -/
structure Protects (escaping : Escaping) (kind : LiteralKind) (mark : Char) (quoting : Quoting) :
    Prop where
  closes : ∀ text rest : List Char, (∀ c ∈ rest.head?, c ≠ mark) →
    quoted? mark quoting (mark :: (escaping.escapeChars kind text ++ mark :: rest)) =
      some (escaping.escapeChars kind text, rest)
  undone : ∀ text, escaping.unescapeChars kind (escaping.escapeChars kind text) = text

variable {escaping : Escaping} {kind : LiteralKind} {mark : Char}

/-- Backslashes in front of marks and backslashes fit texts in which a backslash protects the
character behind it. -/
theorem protects_backslash {symbols : String}
    (rules : escaping.rules kind = [backslash symbols]) (marked : mark ∈ symbols.toList)
    (backslashed : '\\' ∈ symbols.toList) (lines : '\n' ∉ symbols.toList) (apart : mark ≠ '\\') :
    escaping.Protects kind mark .escaped := by
  constructor
  · intro text rest _
    rw [escapeChars_single rules, quoted?, if_pos (by simp)]
    exact EscapeRule.escapedBody_apply_backslash marked backslashed lines apart text rest
  · intro text
    rw [escapeChars_single rules, unescapeChars_single rules]
    exact EscapeRule.undo_apply_marked (by decide) symbols.toList text

/-- Doubled marks fit texts in which two marks stand for one. -/
theorem protects_doubled (rules : escaping.rules kind = [.doubled mark true]) :
    escaping.Protects kind mark .doubled := by
  constructor
  · intro text rest ends
    rw [escapeChars_single rules, quoted?, if_pos (by simp)]
    exact EscapeRule.doubledBody_apply_doubled mark true text ends
  · intro text
    rw [escapeChars_single rules, unescapeChars_single rules]
    exact EscapeRule.undo_apply_doubled mark text

end Escaping

namespace Dialect

/-- An equality with a literal is read without loss. The literal stands for the text, and it ends
at its last character unless the same one follows. The equality is the one comparison that the
wildcards at the ends of the text make of it. -/
structure ReadsEquality (dialect : Dialect) (name literal value wildcard : String) : Prop where
  ends : ∀ rest : List Char, rest.head? ≠ literal.toList.getLast? →
    dialect.scalar false (literal.toList ++ rest) = .ok (some (⟨.text value, false⟩, rest))
  tokens : dialect.tokenize (name ++ "=" ++ literal) =
    .ok [.leaf (.comparison { name } (promoteWildcards .eq value.toList wildcard.toList).operator
      (promoteWildcards .eq value.toList wildcard.toList).value
      (promoteWildcards .eq value.toList wildcard.toList).wildcards)]

variable {dialect : Dialect} {mark : Char} {quoting : Quoting} {kind : LiteralKind}

/-- A text between quotes that its escapes fit stands for what was escaped in it. -/
theorem scalar_escaped (quotes : dialect.Quotes mark quoting kind)
    (outside : ∀ accepts ∈ dialect.bare?, accepts mark = false)
    (protects : dialect.escaping.Protects kind mark quoting) (content : List Char)
    {rest : List Char} (ends : ∀ c ∈ rest.head?, c ≠ mark) (inList : Bool) :
    dialect.scalar inList (mark :: (dialect.escaping.escapeChars kind content ++ mark :: rest)) =
      .ok (some (⟨.text (String.ofList content), false⟩, rest)) := by
  rw [scalar_quoted quotes outside (protects.closes content rest ends) inList, protects.undone]

/-- No connective is read where a plain name with a sign behind it stands. -/
theorem Equates.connective_none (equates : dialect.Equates) {name : List Char}
    (plain : IsPlainName name) (tail : List Char) :
    dialect.connective? (name ++ '=' :: tail) = none := by
  rw [connective?, List.findSome?_eq_none_iff]
  intro entry listed
  obtain ⟨solid, unsigned⟩ := equates.connectives entry listed
  cases found : wordRest? dialect.foldConnectives entry.1.toList (name ++ '=' :: tail) with
  | none => simp [found]
  | some rest =>
    obtain ⟨taken, more, split, rfl, _⟩ := IsPlainName.exists_of_wordRest solid unsigned found
    cases more with
    | nil => simp [found, isSpace, isGap]
    | cons c =>
      obtain ⟨visible, opening, _⟩ := plain.apart c (by simp [split])
      have other : c ≠ '(' := fun same => opening (congrArg foldKey same)
      simp [found, visible, other]

/-- A plain name, the sign of equality and a literal are read as one comparison. -/
theorem Equates.step_eq (equates : dialect.Equates) {name : List Char} (plain : IsPlainName name)
    {c : Char} (visible : isSpace c = false) {tail rest : List Char} {value : Value}
    (literal : dialect.scalar false (c :: tail) = .ok (some (⟨value, false⟩, rest))) :
    dialect.step (name ++ '=' :: c :: tail) =
      .ok (comparison name .eq dialect.wildcard value, rest) := by
  have head : dialect.head? (name ++ '=' :: c :: tail) = some ⟨name, ['='], c :: tail⟩ := by
    have gapless : ('=' :: c :: tail).dropWhile isSpace = '=' :: c :: tail := rfl
    simp [head?, equates.field name _ plain, gapless, equates.symbol, visible]
  have compared : dialect.comparison? (name ++ '=' :: c :: tail) =
      .ok (some (comparison name .eq dialect.wildcard value, rest)) := by
    rw [comparison?, head]
    simp only [equates.spelling, literal]
    rfl
  have unconnected := equates.connective_none plain (c :: tail)
  have apart := plain.apart
  obtain ⟨first, others, rfl, _⟩ := plain
  obtain ⟨_, opening, closing, _⟩ := apart first List.mem_cons_self
  rw [step]
  · simp only [unconnected, compared]
    rfl
  · rintro behind same
    exact opening (congrArg foldKey (List.cons.inj same).1)
  · rintro behind same
    exact closing (List.cons.inj same).1

/-- An equality with a text is the comparison that the wildcards at its ends make of it. -/
theorem comparison_equality {name : String} (plain : IsPlainName name.toList)
    (wildcard value : String) :
    comparison name.toList .eq wildcard (.text value) =
      [.leaf (.comparison { name } (promoteWildcards .eq value.toList wildcard.toList).operator
        (promoteWildcards .eq value.toList wildcard.toList).value
        (promoteWildcards .eq value.toList wildcard.toList).wildcards)] := by
  have unquoted : trimChar '"' (String.ofList name.toList) = name := by
    have kept : trimBy (· == '"') name.toList = name.toList :=
      trimBy_of_forall fun c own => beq_eq_false_iff_ne.mpr (plain.apart c own).2.2.2
    simp [trimChar, kept]
  have positive : Operator.eq ≠ .neq := by decide
  simp only [comparison, unquoted, negate_promoteWildcards positive]
  rfl

/-- A whole text that is an equality with a literal is read as its comparison. -/
theorem Equates.tokenize_eq (equates : dialect.Equates) {name text : String}
    (plain : IsPlainName name.toList) {c : Char} (visible : isSpace c = false) {tail : List Char}
    (spelt : text.toList = name.toList ++ '=' :: c :: tail) {value : String}
    (literal : dialect.scalar false (c :: tail) = .ok (some (⟨.text value, false⟩, []))) :
    dialect.tokenize text = .ok (comparison name.toList .eq dialect.wildcard (.text value)) := by
  have stepped := equates.step_eq plain visible literal
  have apart := plain.apart
  have sole := comparison_equality plain dialect.wildcard value
  obtain ⟨first, others, written, _⟩ := plain
  have gapless : isGap first = false := by
    have space := (apart first (by simp [written])).1
    simp only [isSpace, Bool.or_eq_false_iff] at space
    exact space.1
  rw [written, List.cons_append] at stepped
  have whole := tokensFrom_step gapless stepped (by simp) tokensFrom_nil
  rw [tokenize, spelt, written, List.cons_append, whole, ← written, sole, List.append_nil]
  cases dialect.implicitAnd <;> rfl

/-- A text between quotes that its escapes fit is read without loss. -/
theorem Equates.readsEquality (equates : dialect.Equates)
    (quotes : dialect.Quotes mark quoting kind)
    (outside : ∀ accepts ∈ dialect.bare?, accepts mark = false)
    (protects : dialect.escaping.Protects kind mark quoting) {name : String}
    (plain : IsPlainName name.toList) (value : String) :
    dialect.ReadsEquality name
      (String.singleton mark ++ dialect.escaping.escape kind value ++ String.singleton mark)
      value dialect.wildcard := by
  have spelt : (String.singleton mark ++ dialect.escaping.escape kind value ++
      String.singleton mark).toList =
        mark :: (dialect.escaping.escapeChars kind value.toList ++ [mark]) := by
    simp [Escaping.escape]
  have read (rest : List Char) (ends : ∀ c ∈ rest.head?, c ≠ mark) :
      dialect.scalar false
          (mark :: (dialect.escaping.escapeChars kind value.toList ++ mark :: rest)) =
        .ok (some (⟨.text value, false⟩, rest)) := by
    rw [scalar_escaped quotes outside protects value.toList ends, String.ofList_toList]
  constructor
  · intro rest ends
    have other : ∀ c ∈ rest.head?, c ≠ mark := by
      rintro c first rfl
      exact ends (by rw [spelt, List.getLast?_cons, List.getLast?_concat]; exact first)
    rw [spelt, List.cons_append, List.append_assoc, List.singleton_append]
    exact read rest other
  · have visible : isSpace mark = false := by
      cases quotes <;> rfl
    have text : (name ++ "=" ++ (String.singleton mark ++ dialect.escaping.escape kind value ++
        String.singleton mark)).toList = name.toList ++ '=' :: mark ::
          (dialect.escaping.escapeChars kind value.toList ++ [mark]) := by
      rw [String.toList_append, spelt]
      simp
    rw [equates.tokenize_eq plain visible text (read [] (by simp))]
    exact congrArg Except.ok (comparison_equality plain dialect.wildcard value)

end Dialect

theorem Spl.protects_double : Spl.escaping.Protects .doubleQuoted '"' .escaped :=
  Escaping.protects_backslash rfl (by decide) (by decide) (by decide) (by decide)

theorem Spl.equates : Spl.dialect.Equates where
  field _ tail plain := plain.name_eq (fun _ starts => starts)
    (fun c inside => by simp [show (_ || c == '.') = true from inside]) rfl tail
  symbol _ := rfl
  spelling := rfl
  connectives := by decide

theorem LogScale.equates : LogScale.dialect.Equates where
  field _ tail plain := by
    refine plain.name_eq (fun c starts => ?_) (fun c inside => ?_) rfl tail
    · simp [isFieldStart, starts]
    · simp only [continuesPlain, Bool.or_eq_true] at inside
      simp only [isFieldStart, Bool.or_eq_true]
      tauto
  symbol _ := rfl
  spelling := rfl
  connectives := by decide

/-- Neither the name of the payload nor a name in quotes is found where a plain name stands. -/
theorem Aql.field_plain {name : List Char} (plain : IsPlainName name) (tail : List Char) :
    Aql.field? (name ++ '=' :: tail) = some (name, '=' :: tail) := by
  have payload : wordRest? true "UTF8(payload)".toList (name ++ '=' :: tail) = none := by
    refine Option.eq_none_iff_forall_ne_some.mpr fun rest found => ?_
    obtain ⟨taken, more, split, _, folded⟩ :=
      IsPlainName.exists_of_wordRest (by decide) (by decide) found
    have opening : foldKey '(' ∈ taken.map foldKey := by
      rw [folded]
      decide
    obtain ⟨c, own, same⟩ := List.mem_map.mp opening
    exact (plain.apart c (by simp [split, own])).2.1 same
  have found := plain.name_eq (fun _ starts => starts) (fun _ inside => inside) rfl tail
  have apart := plain.apart
  obtain ⟨first, others, rfl, _⟩ := plain
  have unquoted : first ≠ '"' := (apart first List.mem_cons_self).2.2.2
  rw [List.cons_append] at payload found ⊢
  simp only [field?, payload, Option.map_none]
  split
  · next rest same => exact absurd (List.cons.inj same).1 unquoted
  · exact found

/-- Conditions of QRadar searches tell a plain name, the sign of equality and a value apart. -/
theorem Aql.equates : Aql.dialect.Equates where
  field _ tail plain := Aql.field_plain plain tail
  symbol _ := rfl
  spelling := rfl
  connectives := by decide

/-- An equality of a plain name with any text between quotes is read without loss: in searches
between double and between single quotes, in LogScale filters between double quotes, and in
conditions of QRadar searches between single quotes. Stars at the ends of the text count as
wildcards in the first two languages, and nothing does in the third. -/
theorem tokenize_quoted_text (name value : String) (plain : IsPlainName name.toList) :
    Spl.dialect.ReadsEquality name
      ("\"" ++ Spl.escaping.escape .doubleQuoted value ++ "\"") value "*" ∧
    Spl.dialect.ReadsEquality name
      ("'" ++ Spl.escaping.escape .singleQuoted value ++ "'") value "*" ∧
    LogScale.dialect.ReadsEquality name
      ("\"" ++ LogScale.escaping.escape .doubleQuoted value ++ "\"") value "*" ∧
    Aql.dialect.ReadsEquality name
      ("'" ++ Aql.escaping.escape .singleQuoted value ++ "'") value "" := by
  refine ⟨?_, ?_, ?_, ?_⟩
  · exact Spl.equates.readsEquality (.double rfl) (by rintro _ ⟨⟩; rfl) Spl.protects_double
      plain value
  · have protects : Spl.escaping.Protects .singleQuoted '\'' .escaped :=
      Escaping.protects_backslash rfl (by decide) (by decide) (by decide) (by decide)
    exact Spl.equates.readsEquality (.single rfl) (by rintro _ ⟨⟩; rfl) protects plain value
  · have protects : LogScale.escaping.Protects .doubleQuoted '"' .escaped :=
      Escaping.protects_backslash rfl (by decide) (by decide) (by decide) (by decide)
    exact LogScale.equates.readsEquality (.double rfl) (by rintro _ ⟨⟩; rfl) protects plain value
  · have protects : Aql.escaping.Protects .singleQuoted '\'' .doubled :=
      Escaping.protects_doubled rfl
    exact Aql.equates.readsEquality (.single rfl) (by rintro _ ⟨⟩) protects plain value

/-- The theorem at a field with the name of a connective and at a text that begins with a
backslash and both quotes and ends in a star. -/
theorem tokenize_quoted_text_starred :
    let starts : Token :=
      .leaf (.comparison { name := "NOT" } .startsWith (.text "\\'\"") ⟨false, true⟩)
    let equals : Token := .leaf (.comparison { name := "NOT" } .eq (.text "\\'\"*") {})
    IsPlainName "NOT".toList ∧
    Spl.dialect.tokenize "NOT=\"\\\\'\\\"*\"" = .ok [starts] ∧
    Spl.dialect.tokenize "NOT='\\\\\\'\"*'" = .ok [starts] ∧
    LogScale.dialect.tokenize "NOT=\"\\\\'\\\"*\"" = .ok [starts] ∧
    Aql.dialect.tokenize "NOT='\\''\"*'" = .ok [equals] := by
  intro starts equals
  have plain : IsPlainName "NOT".toList := ⟨'N', ['O', 'T'], rfl, rfl, List.all_eq_true.mp rfl⟩
  obtain ⟨double, single, logScale, aql⟩ := tokenize_quoted_text "NOT" "\\'\"*" plain
  have backslashed : "NOT" ++ "=" ++
      ("\"" ++ Spl.escaping.escape .doubleQuoted "\\'\"*" ++ "\"") =
        "NOT=\"\\\\'\\\"*\"" := by decide
  have singly : "NOT" ++ "=" ++ ("'" ++ Spl.escaping.escape .singleQuoted "\\'\"*" ++ "'") =
      "NOT='\\\\\\'\"*'" := by decide
  have doubled : "NOT" ++ "=" ++ ("'" ++ Aql.escaping.escape .singleQuoted "\\'\"*" ++ "'") =
      "NOT='\\''\"*'" := by decide
  exact ⟨plain, backslashed ▸ double.tokens, singly ▸ single.tokens,
    backslashed ▸ logScale.tokens, doubled ▸ aql.tokens⟩

end Detection

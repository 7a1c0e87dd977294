import Detection.Proofs.SplReading
import Detection.Proofs.WildcardEnds

/-!
# Searches that survive reading

A condition over comparisons with exact values can be written as a search and read
again: the tokens of the search compile, and the new tree says what the old one says.
Reading undoes writing up to what a search does not show. A field has the name under
which it was written. The absence of a field is written as NOT in front of its presence,
and neither shows a value. An ending is written with a star inside the quotes, so that a
number is read as the text of its digits. All other comparisons come back as they are.
-/
namespace Detection

open Text Lexer Dialect

variable {value : Value} {name : String} {operator : Operator}

namespace Spl

/-- Single values that a search names exactly: texts without a star, and decimal numbers
within range. -/
inductive Exact : Value → Prop
  | text (content : String) (plain : '*' ∉ content.toList) : Exact (.text content)
  | number (lexeme : String) (decimal : IsDecimal lexeme.toList)
      (accepted : Value.ofNumeral lexeme = .ok (.number lexeme)) : Exact (.number lexeme)

/-- A digit is a number that a search names exactly, if it is a numeral. -/
theorem Exact.digit {lexeme : String} {digit : Char} (spelt : lexeme.toList = [digit])
    (isDigit : digit.isDigit = true) (accepted : checkNumeral lexeme.toList = .ok ()) :
    Exact (.number lexeme) := by
  refine .number lexeme ?_ (by simp only [Value.ofNumeral, accepted])
  rw [spelt]
  exact ⟨[], [digit], [], rfl, .inl rfl, List.cons_ne_nil _ _, by simpa using isDigit, .inl rfl⟩

/-- The comparisons that a search can say and that are read again. -/
inductive Comparable : Operator → Value → Prop
  | ordered (operator : Operator) (value : Value)
      (listed : operator ∈ [.eq, .neq, .lt, .lte, .gt, .gte]) (exact : Exact value) :
      Comparable operator value
  | presence (operator : Operator) (value : Value) (listed : operator ∈ [.isNone, .isNotNone])
      (exact : Exact value) : Comparable operator value
  | ending (value : Value) (exact : Exact value) (some : value ≠ .text "") :
      Comparable .endsWith value
  | oneOf (items : List Value) (several : 2 ≤ items.length)
      (exact : ∀ item ∈ items, Exact item) : Comparable .eq (.list items)

/-- The name under which a field is written without a mapping. -/
def writtenName (field : Field) : String := field.genericFor Meta.defaultMapping

/-- The leaves that a search can say and that are read again. -/
inductive Searchable : Leaf → Prop
  | comparison (field : Field) (operator : Operator) (value : Value) (wildcards : Wildcards)
      (isName : IsName (writtenName field).toList) (comparable : Comparable operator value) :
      Searchable (.comparison field operator value wildcards)

/-- What the search for a leaf is read as. -/
def reread : Leaf → Operand
  | .comparison field operator value _ =>
    let field : Field := { name := writtenName field }
    match operator, value with
    | .isNone, _ => .negated (.clause (.comparison field .isNotNone (.text "") ⟨true, true⟩))
    | .isNotNone, _ => .clause (.comparison field .isNotNone (.text "") ⟨true, true⟩)
    | .endsWith, .number lexeme =>
      .clause (.comparison field .endsWith (.text lexeme) ⟨true, false⟩)
    | .endsWith, value => .clause (.comparison field .endsWith value ⟨true, false⟩)
    | operator, value => .clause (.comparison field operator value {})
  | leaf => .clause leaf

theorem IsField.trimChar_eq (isField : IsField name.toList) :
    trimChar '"' (String.ofList name.toList) = name := by
  have kept : trimBy (· == '"') name.toList = name.toList := by
    refine trimBy_of_forall fun c belongs => ?_
    rw [beq_eq_false_iff_ne]
    rintro rfl
    exact absurd (isField.continues '"' belongs) (by decide)
  simp [trimChar, kept]

theorem IsName.trimChar_eq (isName : IsName name.toList) :
    trimChar '"' (String.ofList name.toList) = name := isName.isField.trimChar_eq

theorem IsDecimal.plain {lexeme : List Char} (decimal : IsDecimal lexeme) :
    lexeme ≠ [] ∧ '*' ∉ lexeme := by
  obtain ⟨sign, whole, places, rfl, signs, some, inside, shape⟩ := decimal
  have digit (digits : List Char) (inside : ∀ c ∈ digits, c.isDigit = true) : '*' ∉ digits :=
    fun belongs => absurd (inside '*' belongs) (by decide)
  have signless : '*' ∉ sign := by
    rcases signs with rfl | rfl <;> decide
  have placeless : '*' ∉ places := by
    rcases shape with rfl | ⟨digits, rfl, _, digitsInside⟩
    · exact List.not_mem_nil
    · simpa using digit digits digitsInside
  refine ⟨by simp [some], ?_⟩
  simp [signless, digit whole inside, placeless]

/-- An exact value is written as a literal that stands for it. -/
theorem exists_literal (exact : Exact value) :
    ∃ text, quoted "" value "" = .ok text ∧ Denotes text.toList value := by
  cases exact with
  | text content =>
    refine ⟨_, rfl, ?_⟩
    simpa [Escaping.escape] using denotes_quoted content.toList
  | number lexeme decimal accepted => exact ⟨lexeme, rfl, denotes_number decimal accepted⟩

/-- Exact values of a list are written as literals that stand for them. -/
theorem exists_literals (items : List Value) (exact : ∀ item ∈ items, Exact item) :
    ∃ parts, items.mapM (quoted "" · "") = .ok parts ∧
      List.Forall₂ (fun part value => Denotes part.toList value) parts items := by
  induction items with
  | nil => exact ⟨[], rfl, .nil⟩
  | cons item others ih =>
    obtain ⟨text, written, denotes⟩ := exists_literal (exact item List.mem_cons_self)
    obtain ⟨parts, othersWritten, denote⟩ :=
      ih fun other belongs => exact other (List.mem_cons_of_mem _ belongs)
    refine ⟨text :: parts, ?_, .cons denotes denote⟩
    simp [List.mapM_cons, written, othersWritten, bind, Except.bind, pure, Except.pure]

/-- The text that an exact value shows. -/
def shown : Value → String
  | .number lexeme => lexeme
  | .text content => content
  | _ => ""

/-- An ending is written as a literal with a star in front of its text. -/
theorem exists_ending (exact : Exact value) :
    ∃ text, quoted "*" value "" = .ok text ∧
      Denotes text.toList (.text (String.ofList ('*' :: (shown value).toList))) := by
  have starred (content : String) :
      Denotes ("\"" ++ "*" ++ escaping.escape .doubleQuoted content ++ "" ++ "\"").toList
        (.text (String.ofList ('*' :: content.toList))) := by
    have star : escaping.escapeChars .doubleQuoted ('*' :: content.toList) =
        '*' :: escaping.escapeChars .doubleQuoted content.toList := rfl
    simpa [Escaping.escape, star] using denotes_quoted ('*' :: content.toList)
  cases exact with
  | text content => exact ⟨_, rfl, starred content⟩
  | number lexeme => exact ⟨_, rfl, starred lexeme⟩

theorem Exact.shown_plain (exact : Exact value) : '*' ∉ (shown value).toList := by
  cases exact with
  | text content plain => exact plain
  | number lexeme decimal => exact decimal.plain.2

theorem Exact.shown_ne_empty (exact : Exact value) (some : value ≠ .text "") :
    shown value ≠ "" := by
  cases exact with
  | text content =>
    rintro (rfl : content = "")
    exact some rfl
  | number lexeme decimal =>
    rintro (rfl : lexeme = "")
    exact decimal.plain.1 rfl

/-- A comparison with an exact value is read as it is. -/
theorem comparison_exact (isName : IsName name.toList) (operator : Operator) (exact : Exact value) :
    comparison name.toList operator "*" value =
      [.leaf (.comparison { name } operator value {})] := by
  cases exact with
  | text content plain =>
    have promoted : promoteWildcards operator content.toList "*".toList =
        { operator, value := .text content } := by
      simpa using promoteWildcards_plain operator plain
    simp only [comparison, promoted, isName.trimChar_eq]
    rfl
  | number => simp only [comparison, isName.trimChar_eq]

/-- A comparison with a list of exact values is read as it is. -/
theorem comparison_oneOf (isName : IsName name.toList) (operator : Operator) {items : List Value}
    (exact : ∀ item ∈ items, Exact item) :
    comparison name.toList operator "*" (.list items) =
      [.leaf (.comparison { name } operator (.list items) {})] := by
  simp only [comparison, isName.trimChar_eq]
  refine congrArg (fun items => [Token.leaf (.comparison { name } operator (.list items) {})]) ?_
  refine (List.map_congr_left fun item belongs => ?_).trans (List.map_id items)
  cases exact item belongs with
  | text content plain => simpa using patternValue_plain plain
  | number => rfl

/-- The comparison with a star asks for presence. -/
theorem comparison_star (isName : IsName name.toList) :
    comparison name.toList .eq "*" (.text "*") =
      [.leaf (.comparison { name } .isNotNone (.text "") ⟨true, true⟩)] := by
  have promoted : promoteWildcards .eq "*".toList "*".toList =
      { operator := .isNotNone, value := .text "", wildcards := ⟨true, true⟩ } := rfl
  simp only [comparison, promoted, isName.trimChar_eq]
  rfl

/-- The comparison with a star in front of a text asks for an ending. -/
theorem comparison_ending (isName : IsName name.toList) {content : String} (some : content ≠ "")
    (plain : '*' ∉ content.toList) :
    comparison name.toList .eq "*" (.text (String.ofList ('*' :: content.toList))) =
      [.leaf (.comparison { name } .endsWith (.text content) ⟨true, false⟩)] := by
  have promoted : promoteWildcards .eq ('*' :: content.toList) "*".toList =
      { operator := .endsWith, value := .text content, wildcards := ⟨true, false⟩ } := by
    simpa using promoteWildcards_ending (by simpa using some) plain
  simp only [comparison, String.toList_ofList, promoted, isName.trimChar_eq]
  rfl

/-- How searches are written without any mapping. -/
def bareForm (platform : String) : QueryForm := form (.ofRecords platform []) false

/-- Without any mapping a field has one name. -/
theorem names_bareForm (platform : String) (field : Field) :
    (bareForm platform).names (bareForm platform).repository.default field =
      .ok [writtenName field] := rfl

/-- Without any mapping a leaf is written as one comparison. -/
theorem leaf_bareForm (platform : String) (field : Field) (operator : Operator) (value : Value)
    (wildcards : Wildcards) :
    (bareForm platform).leaf (bareForm platform).repository.default
        (.comparison field operator value wildcards) =
      (clauses "splunk").comparison ⟨"OR", "AND"⟩ (writtenName field) operator value := by
  simp only [QueryForm.leaf, names_bareForm]
  rfl

/-- A comparison with an exact value is written as one with a single value. -/
theorem comparison_single (words : Words) (name : String) (operator : Operator)
    (exact : Exact value) :
    (clauses "splunk").comparison words name operator value =
      scalar "splunk" name operator value := by
  cases exact <;> rfl

/-- A comparison by a symbol is the name, the symbol and the literal. -/
theorem scalar_symbol (platform : String) (some : name ≠ "") {symbol : List Char}
    (written : symbolOf? operator = Option.some symbol) {text : String}
    (literal : quoted "" value "" = .ok text) :
    scalar platform name operator value = .ok (name ++ String.ofList symbol ++ text) := by
  cases operator <;> simp only [symbolOf?, Option.some.injEq, reduceCtorEq] at written <;>
    subst written <;> simp [scalar, some, literal, bind, Except.bind, pure, Except.pure]

/-- The comparisons that are written by a symbol. -/
theorem exists_symbol (listed : operator ∈ [.eq, .neq, .lt, .lte, .gt, .gte]) :
    ∃ symbol, symbolOf? operator = some symbol ∧
      ∀ field value wildcards, reread (.comparison field operator value wildcards) =
        .clause (.comparison { name := writtenName field } operator value {}) := by
  simp only [List.mem_cons, List.not_mem_nil, or_false] at listed
  rcases listed with rfl | rfl | rfl | rfl | rfl | rfl <;> exact ⟨_, rfl, fun _ _ _ => rfl⟩

theorem spells_not : dialect.Spells ['N', 'O', 'T'] .not :=
  ⟨⟨'N', _, rfl, rfl⟩, fun _ => rfl⟩

/-- The comparison of a field is written as a text that is read as some tokens. -/
def ReadsBack (name : String) (operator : Operator) (value : Value) (tokens : List Token) : Prop :=
  ∃ text, (clauses "splunk").comparison ⟨"OR", "AND"⟩ name operator value = .ok text ∧
    text ≠ "" ∧ dialect.ReadsAs text.toList tokens

section

variable {field : Field} (isName : IsName (writtenName field).toList)
  (some : writtenName field ≠ "") (wildcards : Wildcards)
include isName some

/-- An ordering or an equality with a single value. -/
theorem readsBack_ordered (listed : operator ∈ [.eq, .neq, .lt, .lte, .gt, .gte])
    (exact : Exact value) :
    ReadsBack (writtenName field) operator value
      (reread (.comparison field operator value wildcards)).tokens := by
  obtain ⟨text, literal, denotes⟩ := exists_literal exact
  obtain ⟨symbol, written, read⟩ := exists_symbol listed
  refine ⟨_, (comparison_single _ _ _ exact).trans (scalar_symbol _ some written literal),
    by simp [String.append_eq_empty_iff, some], ?_⟩
  rw [read, Operand.tokens, ← comparison_exact isName operator exact]
  simpa using readsAs_scalar isName written denotes

/-- The presence of a field is a star, and its absence NOT in front of that. -/
theorem readsBack_presence (listed : operator ∈ [.isNone, .isNotNone]) (exact : Exact value) :
    ReadsBack (writtenName field) operator value
      (reread (.comparison field operator value wildcards)).tokens := by
  have present : dialect.ReadsAs ((writtenName field).toList ++ (['='] ++ ['*']))
      (comparison (writtenName field).toList .eq "*" (.text "*")) :=
    readsAs_scalar isName rfl denotes_star
  rw [comparison_star isName] at present
  rw [ReadsBack, comparison_single _ _ _ exact]
  rcases List.mem_pair.mp listed with rfl | rfl
  · refine ⟨"NOT " ++ writtenName field ++ "=*", by simp [scalar, some], by simp, ?_⟩
    simpa [reread, Operand.tokens] using ReadsAs.word spells_not present.blank
  · refine ⟨writtenName field ++ "=*", by simp [scalar, some], by simp, ?_⟩
    simpa [reread, Operand.tokens] using present

/-- An ending is an equality with a star in front of the value. -/
theorem readsBack_ending (exact : Exact value) (visible : value ≠ .text "") :
    ReadsBack (writtenName field) .endsWith value
      (reread (.comparison field .endsWith value wildcards)).tokens := by
  obtain ⟨text, literal, denotes⟩ := exists_ending exact
  have shownSome : shown value ≠ "" := exact.shown_ne_empty visible
  have read : reread (.comparison field .endsWith value wildcards) = .clause
      (.comparison { name := writtenName field } .endsWith (.text (shown value))
        ⟨true, false⟩) := by
    cases exact <;> rfl
  have whole : dialect.ReadsAs ((writtenName field).toList ++ (['='] ++ text.toList))
      (comparison (writtenName field).toList .eq "*"
        (.text (String.ofList ('*' :: (shown value).toList)))) :=
    readsAs_scalar isName rfl denotes
  rw [comparison_ending isName shownSome exact.shown_plain] at whole
  rw [ReadsBack, comparison_single _ _ _ exact]
  refine ⟨writtenName field ++ "=" ++ text, ?_, by simp, ?_⟩
  · simp [scalar, some, literal, bind, Except.bind, pure, Except.pure]
  · simpa [read, Operand.tokens] using whole

/-- One of several values is a list between parentheses. -/
theorem readsBack_oneOf {items : List Value} (several : 2 ≤ items.length)
    (exact : ∀ item ∈ items, Exact item) :
    ReadsBack (writtenName field) .eq (.list items)
      (reread (.comparison field .eq (.list items) wildcards)).tokens := by
  obtain ⟨parts, literals, denote⟩ := exists_literals items exact
  have partsSome : parts ≠ [] := by
    rintro rfl
    simp [List.forall₂_nil_left_iff.mp denote] at several
  have unwrapped : (Value.list items).unwrapped = .list items := by
    cases items with
    | nil => simp at several
    | cons first others =>
      cases others with
      | nil => simp at several
      | cons => rfl
  have itemsSome : items ≠ [] := by
    rintro rfl
    simp at several
  have whole := readsAs_oneOf isName denote partsSome
  rw [comparison_oneOf isName .eq exact] at whole
  refine ⟨writtenName field ++ " IN (" ++ join ", " parts ++ ")", ?_, by simp, ?_⟩
  · simp [Clauses.comparison, unwrapped, clauses, some, itemsSome, oneOf, literals, bind,
      Except.bind, pure, Except.pure]
  · simpa [reread, Operand.tokens] using whole

end

/-- A searchable leaf is written as a clause that is read again. -/
theorem exists_clause (platform : String) {leaf : Leaf} (searchable : Searchable leaf) :
    ∃ text, (bareForm platform).leaf (bareForm platform).repository.default leaf = .ok text ∧
      text ≠ "" ∧ dialect.ReadsAs text.toList (reread leaf).tokens := by
  cases searchable with
  | comparison field operator value wildcards isName comparable =>
    have some : writtenName field ≠ "" := by
      obtain ⟨first, others, name, _⟩ := isName.shape
      intro empty
      simp [empty] at name
    rw [leaf_bareForm]
    cases comparable with
    | ordered operator value listed exact =>
      exact readsBack_ordered isName some wildcards listed exact
    | presence operator value listed exact =>
      exact readsBack_presence isName some wildcards listed exact
    | ending value exact visible =>
      exact readsBack_ending isName some wildcards exact visible
    | oneOf items several exact =>
      exact readsBack_oneOf isName some wildcards several exact

/-- The words of written searches are read as connectives and NOT. -/
theorem spelt_bareForm (platform : String) :
    ((bareForm platform).wording (bareForm platform).repository.default).Spelt dialect := by
  have spells (word : String) (letters : List Char) (token : Token) (same : word.toList = letters)
      (spelt : dialect.Spells letters token) : dialect.Spells word.toList token := same ▸ spelt
  constructor
  · intro connective
    cases connective with
    | and => exact spells "AND" _ _ rfl ⟨⟨'A', ['N', 'D'], rfl, rfl⟩, fun _ => rfl⟩
    | or => exact spells "OR" _ _ rfl ⟨⟨'O', ['R'], rfl, rfl⟩, fun _ => rfl⟩
  · exact spells "NOT" _ _ rfl spells_not

/-- A compiled query of searchable leaves can be written as a search without any mapping,
the search can be read and compiles again, and the new tree has the value of the old one
when each old leaf counts as what its clause is read as. The leaves of the new tree are
those of the old one as they are read, in the same order. -/
theorem compile_tokenize_condition (platform : String) (tokens : List Token) (tree : Tree)
    (compiled : compile tokens = .ok tree) (searchable : ∀ leaf ∈ tree.leaves, Searchable leaf) :
    ∃ body read again,
      (bareForm platform).condition (bareForm platform).repository.default tree = .ok body ∧
      dialect.tokenize body = .ok read ∧ compile read = .ok again ∧
      (∀ truth, again.value truth = tree.value fun leaf => (reread leaf).value truth) ∧
      again.leaves = tree.leaves.flatMap fun leaf => (reread leaf).leaves := by
  obtain ⟨scope, rfl, ⟨rfl, _⟩ | ⟨inner, rfl, shape, _⟩⟩ := compile_scope compiled
  · have nothing : dialect.tokenize "" = .ok [] := by
      simp [Dialect.tokenize, Dialect.tokensFrom_nil, Token.insertImplicitAnds]
    exact ⟨"", [], .group .and [], rfl, nothing, rfl, fun _ => rfl, rfl⟩
  · rw [Tree.leaves_ofScope] at searchable ⊢
    have clause (leaf : Leaf) (belongs : leaf ∈ inner.leaves) :=
      exists_clause platform (searchable leaf belongs)
    obtain ⟨body, rendered⟩ := QueryForm.exists_condition shape fun leaf belongs =>
      (clause leaf belongs).imp fun _ written => written.1
    obtain ⟨_, condition, writes, _⟩ := QueryForm.written_of_inner shape
      (fun leaf belongs empty => by
        obtain ⟨text, written, some, _⟩ := clause leaf belongs
        rw [written] at empty
        exact some (Except.ok.inj empty)) body rendered
    have reads : ∀ leaf ∈ condition.leaves, dialect.ReadsAs
        (((bareForm platform).wording (bareForm platform).repository.default).clause leaf).toList
        (reread leaf).tokens := by
      intro leaf belongs
      rw [writes.leaves] at belongs
      obtain ⟨text, written, _, reads⟩ := clause leaf belongs
      simpa [QueryForm.wording, QueryForm.clause, written, Except.toOption] using reads
    have tokenized := condition.tokenize_text (spelt_bareForm platform) reads
    rw [writes.text] at tokenized
    obtain ⟨again, compiledAgain, value, leaves⟩ := (condition.bind reread).exists_compiled
    refine ⟨body, _, again, (QueryForm.condition_ofScope _ _ _).trans rendered, tokenized,
      compiledAgain, fun truth => ?_, ?_⟩
    · rw [value, Infix.value_bind, writes.value, Tree.value_ofScope]
      rfl
    · rw [leaves, Infix.leaves_bind, writes.leaves]
      rfl

/-- The theorem at `f = a"b AND (g IN (1, x) OR NOT absent h)`, where a value needs an
escape, a list stands between parentheses and an absence under NOT. -/
theorem compile_tokenize_condition_nested :
    let field (name : String) (operator : Operator) (value : Value) : Leaf :=
      .comparison { name } operator value {}
    let text := field "f" .eq (.text "a\"b")
    let list := field "g" .eq (.list [.number "1", .text "x"])
    let absence := field "h" .isNone (.text "")
    let tree : Tree := .group .and [.leaf text,
      .group .or [.leaf list, .group .not [.leaf absence]]]
    compile [.leaf text, .and, .opening, .leaf list, .or, .not, .leaf absence, .closing] =
      .ok tree ∧
    (∀ leaf ∈ tree.leaves, Searchable leaf) ∧
    (bareForm "splunk").condition (bareForm "splunk").repository.default tree =
      .ok "f=\"a\\\"b\" AND (g IN (1, \"x\") OR NOT NOT h=*)" ∧
    ∃ body read again,
      (bareForm "splunk").condition (bareForm "splunk").repository.default tree = .ok body ∧
      dialect.tokenize body = .ok read ∧ compile read = .ok again ∧
      (∀ truth, again.value truth = tree.value fun leaf => (reread leaf).value truth) ∧
      again.leaves = tree.leaves.flatMap fun leaf => (reread leaf).leaves := by
  intro field text list absence tree
  have isName (letter : Char) (starts : Dialect.isNameStart letter = true) : IsName [letter] :=
    ⟨⟨letter, [], rfl, starts, by simp⟩, by simp⟩
  have one : Exact (.number "1") := .digit rfl rfl (by decide +kernel)
  have searchable : ∀ leaf ∈ tree.leaves, Searchable leaf := by
    have leaves : tree.leaves = [text, list, absence] := rfl
    simp only [leaves, List.forall_mem_cons, List.not_mem_nil, IsEmpty.forall_iff, implies_true,
      and_true]
    refine ⟨?_, ?_, ?_⟩
    · exact .comparison _ _ _ _ (isName 'f' rfl)
        (.ordered _ _ (by simp) (.text _ (by decide)))
    · refine .comparison _ _ _ _ (isName 'g' rfl) (.oneOf _ (by simp) ?_)
      simp only [List.forall_mem_cons, List.not_mem_nil, IsEmpty.forall_iff, implies_true, and_true]
      exact ⟨one, .text _ (by decide)⟩
    · exact .comparison _ _ _ _ (isName 'h' rfl)
        (.presence _ _ (by simp) (.text _ (by decide)))
  have compiled : compile [.leaf text, .and, .opening, .leaf list, .or, .not, .leaf absence,
      .closing] = .ok tree := rfl
  exact ⟨compiled, searchable, rfl,
    compile_tokenize_condition "splunk" _ tree compiled searchable⟩

/-- A search for an ending does not tell a number from a text: what was written for a
number is read as the text of its digits. -/
theorem ending_of_number_reads_text :
    let old : Leaf := .comparison { name := "f" } .endsWith (.number "5") {}
    let new : Leaf := .comparison { name := "f" } .endsWith (.text "5") ⟨true, false⟩
    Searchable old ∧ compile [.leaf old] = .ok (.group .single [.leaf old]) ∧
    (bareForm "splunk").condition (bareForm "splunk").repository.default
      (.group .single [.leaf old]) = .ok "f=\"*5\"" ∧
    dialect.tokenize "f=\"*5\"" = .ok [.leaf new] ∧
    compile [.leaf new] = .ok (.group .single [.leaf new]) ∧ new.value ≠ old.value := by
  intro old new
  have five : Exact (.number "5") := .digit rfl rfl (by decide +kernel)
  have isName : IsName ['f'] := ⟨⟨'f', [], rfl, rfl, by simp⟩, by simp⟩
  have searchable : Searchable old := .comparison _ _ _ _ isName (.ending _ five (by simp))
  have tokenized : dialect.tokenize "f=\"*5\"" = .ok [.leaf new] := by
    obtain ⟨text, written, _, reads⟩ := exists_clause "splunk" searchable
    obtain rfl : "f=\"*5\"" = text := Except.ok.inj written
    have read : dialect.tokensFrom "f=\"*5\"".toList = .ok [.leaf new] := reads.tokensFrom
    rw [Dialect.tokenize, read]
    rfl
  refine ⟨searchable, rfl, rfl, tokenized, rfl, ?_⟩
  simp [old, new, Leaf.value]

end Spl

end Detection

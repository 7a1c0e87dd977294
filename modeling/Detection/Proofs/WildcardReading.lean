import Detection.Language.Sigma.Blocks
import Detection.Language.Sigma.Rule
import Detection.Proofs.SplRoundTrip

/-!
# Stars that are written and read again

A value is read after its escapes have been taken off, and only then are the stars at its ends
looked at. A backslash in front of the last star keeps that star in the value, whoever the
backslash belongs to. So a search for a text that ends in a backslash is read as another
comparison: the star that was written behind the text stays in it.

Rules are the other way round. A star or a question mark of a text is written behind a backslash,
and the backslash is never taken off again, so that exactly the texts without such marks come
back.
-/
namespace Detection

open Text Lexer

namespace Spl

/-- A text with stars at its ends is written as a literal that stands for it. -/
theorem exists_starred (lead content trail : String)
    (stars : lead ∈ ["", "*"] ∧ trail ∈ ["", "*"]) :
    ∃ text, quoted lead (.text content) trail = .ok text ∧ Denotes text.toList
      (.text (String.ofList (lead.toList ++ content.toList ++ trail.toList))) := by
  have plain : ∀ mark ∈ ["", "*"],
      escaping.escapeChars .doubleQuoted mark.toList = mark.toList := by decide
  have denotes := denotes_quoted (lead.toList ++ content.toList ++ trail.toList)
  rw [Escaping.escapeChars_append, Escaping.escapeChars_append, plain lead stars.1,
    plain trail stars.2] at denotes
  refine ⟨_, rfl, ?_⟩
  simpa [Escaping.escape] using denotes

/-- An equality with a text between quotes is read as the comparison that the stars at the ends of
the text make of it. -/
theorem tokenize_equality {field text : String} (isField : IsField field.toList)
    {content : List Char} (denotes : Denotes text.toList (.text (String.ofList content))) :
    dialect.tokenize (field ++ "=" ++ text) =
      .ok [.leaf (.comparison { name := field } (promoteWildcards .eq content ['*']).operator
        (promoteWildcards .eq content ['*']).value
        (promoteWildcards .eq content ['*']).wildcards)] := by
  have symbol : symbolOf? .eq = some ['='] := rfl
  have star : "*".toList = ['*'] := rfl
  have written : (field ++ "=" ++ text).toList = field.toList ++ (['='] ++ text.toList) := by simp
  have positive : Operator.eq ≠ .neq := by decide
  have reads := (readsAs_symbol isField symbol denotes).tokensFrom
  simp only [Dialect.comparison, String.toList_ofList, isField.trimChar_eq, star,
    negate_promoteWildcards positive] at reads
  rw [Dialect.tokenize, written, reads]
  rfl

variable {platform field content : String}

theorem IsField.ne_empty (isField : IsField field.toList) : field ≠ "" := by
  rintro rfl
  obtain ⟨first, others, spelt, _⟩ := isField
  simp at spelt

/-- What the search for a text inside the values of a field is read as. -/
theorem tokenize_inside (platform : String) (isField : IsField field.toList)
    (plain : '*' ∉ content.toList) :
    ∃ text, scalar platform field .contains (.text content) = .ok text ∧
      dialect.tokenize text = .ok [.leaf (
        if content.toList.getLast? = some '\\' then
          .comparison { name := field } .endsWith (.pattern (content ++ "*") true) ⟨true, false⟩
        else .comparison { name := field } .contains (.text content) ⟨true, true⟩)] := by
  obtain ⟨literal, written, denotes⟩ := exists_starred "*" content "*" (by simp)
  refine ⟨field ++ "=" ++ literal, ?_, ?_⟩
  · simp [scalar, isField.ne_empty, written, bind, Except.bind, pure, Except.pure]
  · have marks : "*".toList ++ content.toList ++ "*".toList =
        '*' :: (content.toList ++ ['*']) := by simp
    rw [marks] at denotes
    rw [tokenize_equality isField denotes, promoteWildcards_inside plain]
    split <;> simp [String.ofList_append]

/-- What the search for a text at the beginning of a field is read as. -/
theorem tokenize_beginning (platform : String) (isField : IsField field.toList)
    (some : content ≠ "") (plain : '*' ∉ content.toList) :
    ∃ text, scalar platform field .startsWith (.text content) = .ok text ∧
      dialect.tokenize text = .ok [.leaf (
        if content.toList.getLast? = Option.some '\\' then
          .comparison { name := field } .eq (.pattern (content ++ "*") true) {}
        else .comparison { name := field } .startsWith (.text content) ⟨false, true⟩)] := by
  obtain ⟨literal, written, denotes⟩ := exists_starred "" content "*" (by simp)
  refine ⟨field ++ "=" ++ literal, ?_, ?_⟩
  · simp [scalar, isField.ne_empty, written, bind, Except.bind, pure, Except.pure]
  · have marks : "".toList ++ content.toList ++ "*".toList = content.toList ++ ['*'] := by simp
    rw [marks] at denotes
    rw [tokenize_equality isField denotes, promoteWildcards_beginning (by simpa using some) plain]
    split <;> simp [String.ofList_append]

/-- A search for a non-empty text without stars, inside the values of a field or at their
beginning, is written as one comparison and read as one. It is read as the search that was
written unless the text ends in a backslash. Then the star behind the text stays in the value,
and the search is one for values that end in a pattern, or that are one. -/
theorem tokenize_scalar_starred (platform field content : String)
    (isField : IsField field.toList) (some : content ≠ "") (plain : '*' ∉ content.toList) :
    (∃ text, scalar platform field .contains (.text content) = .ok text ∧
      dialect.tokenize text = .ok [.leaf (
        if content.toList.getLast? = Option.some '\\' then
          .comparison { name := field } .endsWith (.pattern (content ++ "*") true) ⟨true, false⟩
        else .comparison { name := field } .contains (.text content) ⟨true, true⟩)]) ∧
    (∃ text, scalar platform field .startsWith (.text content) = .ok text ∧
      dialect.tokenize text = .ok [.leaf (
        if content.toList.getLast? = Option.some '\\' then
          .comparison { name := field } .eq (.pattern (content ++ "*") true) {}
        else .comparison { name := field } .startsWith (.text content) ⟨false, true⟩)]) :=
  ⟨tokenize_inside platform isField plain, tokenize_beginning platform isField some plain⟩

/-- The theorem at a field with the name of a connective and at a text that begins with a backslash
and a quote. -/
theorem tokenize_scalar_starred_quote :
    IsField "NOT".toList ∧ "\\\"x" ≠ "" ∧ '*' ∉ "\\\"x".toList ∧
    (∃ text, scalar "splunk" "NOT" .contains (.text "\\\"x") = .ok text ∧
      dialect.tokenize text =
        .ok [.leaf (.comparison { name := "NOT" } .contains (.text "\\\"x") ⟨true, true⟩)]) ∧
    (∃ text, scalar "splunk" "NOT" .startsWith (.text "\\\"x") = .ok text ∧
      dialect.tokenize text =
        .ok [.leaf (.comparison { name := "NOT" } .startsWith (.text "\\\"x") ⟨false, true⟩)]) := by
  have isField : IsField "NOT".toList :=
    ⟨'N', ['O', 'T'], rfl, rfl, List.all_eq_true.mp rfl⟩
  have some : "\\\"x" ≠ "" := by decide
  have plain : '*' ∉ "\\\"x".toList := by decide
  have last : "\\\"x".toList.getLast? ≠ Option.some '\\' := by decide
  have read := tokenize_scalar_starred "splunk" "NOT" "\\\"x" isField some plain
  rw [if_neg last, if_neg last] at read
  exact ⟨isField, some, plain, read⟩

/-- A search for the text `a\` inside the values of a field is read as one for values that end in
`a\` and anything behind it. -/
theorem backslash_keeps_star :
    let written := "f=\"*a\\\\*\""
    IsField "f".toList ∧ "a\\" ≠ "" ∧ '*' ∉ "a\\".toList ∧
    scalar "splunk" "f" .contains (.text "a\\") = .ok written ∧
    dialect.tokenize written =
      .ok [.leaf (.comparison { name := "f" } .endsWith (.pattern "a\\*" true) ⟨true, false⟩)] ∧
    ∀ wildcards, dialect.tokenize written ≠
      .ok [.leaf (.comparison { name := "f" } .contains (.text "a\\") wildcards)] := by
  intro written
  have isField : IsField "f".toList := ⟨'f', [], rfl, rfl, by simp⟩
  have plain : '*' ∉ "a\\".toList := by decide
  have scalars : scalar "splunk" "f" .contains (.text "a\\") = .ok written := rfl
  obtain ⟨text, spelt, read⟩ := tokenize_inside "splunk" isField plain
  obtain rfl : written = text := Except.ok.inj (scalars.symm.trans spelt)
  have last : "a\\".toList.getLast? = some '\\' := by decide
  have value : "a\\" ++ "*" = "a\\*" := by decide
  rw [if_pos last, value] at read
  refine ⟨isField, by decide, plain, scalars, read, fun wildcards same => ?_⟩
  rw [read] at same
  simp at same

end Spl

namespace Sigma

/-- The characters of a text in a rule: each, behind a backslash if it is a star or a question
mark. -/
theorem escapeChars_eq (text : List Char) :
    escaping.escapeChars .value text =
      text.flatMap fun c => if c ∈ ['*', '?'] then ['\\', c] else [c] :=
  EscapeRule.apply_backslash "*?" text

theorem guarded_escapeChars (text : List Char) : Guarded (escaping.escapeChars .value text) := by
  rw [escapeChars_eq]
  induction text with
  | nil => simp [Guarded]
  | cons c rest ih =>
    have later (lead before after : List Char)
        (same : rest.flatMap (fun c => if c ∈ ['*', '?'] then ['\\', c] else [c]) =
          before ++ '*' :: after) : (lead ++ before).getLast? = some '\\' := by
      rw [List.getLast?_append, ih before after same]
      rfl
    intro before after same
    by_cases symbol : c ∈ ['*', '?']
    · rw [List.flatMap_cons, if_pos symbol] at same
      rcases before with _ | ⟨mark, _ | ⟨second, others⟩⟩
      · simp at same
      · obtain ⟨rfl, _⟩ := List.cons.inj same
        rfl
      · exact later [mark, second] others after (List.cons.inj (List.cons.inj same).2).2
    · rw [List.flatMap_cons, if_neg symbol] at same
      rcases before with _ | ⟨mark, others⟩
      · obtain ⟨rfl, _⟩ := List.cons.inj same
        exact absurd List.mem_cons_self symbol
      · exact later [mark] others after (List.cons.inj same).2

/-- Each star and each question mark makes a text longer by one. -/
theorem length_escapeChars (text : List Char) :
    (escaping.escapeChars .value text).length =
      text.length + text.countP (· ∈ ['*', '?']) := by
  rw [escapeChars_eq]
  induction text with
  | nil => rfl
  | cons c rest ih =>
    rw [List.flatMap_cons, List.length_append, ih, List.countP_cons]
    by_cases symbol : c ∈ ['*', '?']
    · simp only [symbol, ↓reduceIte, decide_true, List.length_cons, List.length_nil]
      omega
    · simp only [symbol, ↓reduceIte, decide_false, Bool.false_eq_true, List.length_cons,
        List.length_nil]
      omega

/-- Only a text without stars and question marks is written as it is. -/
theorem escapeChars_eq_self_iff (text : List Char) :
    escaping.escapeChars .value text = text ↔ '*' ∉ text ∧ '?' ∉ text := by
  constructor
  · intro same
    have length := length_escapeChars text
    rw [same] at length
    have none : text.countP (· ∈ ['*', '?']) = 0 := by omega
    have free (mark : Char) (listed : mark ∈ ['*', '?']) : mark ∉ text := fun belongs =>
      List.countP_eq_zero.mp none mark belongs (by simpa using listed)
    exact ⟨free '*' (by simp), free '?' (by simp)⟩
  · rintro ⟨star, question⟩
    have plain : ∀ c ∈ text, (if c ∈ ['*', '?'] then ['\\', c] else [c]) = [c] := by
      intro c belongs
      refine if_neg fun listed => ?_
      rcases List.mem_pair.mp listed with rfl | rfl
      · exact star belongs
      · exact question belongs
    rw [escapeChars_eq, List.flatMap_congr plain]
    exact List.flatMap_singleton' text

theorem star_mem_escapeChars (text : List Char) :
    '*' ∈ escaping.escapeChars .value text ↔ '*' ∈ text := by
  rw [escapeChars_eq, List.mem_flatMap]
  constructor
  · rintro ⟨c, belongs, inside⟩
    have same : '*' = c := by
      split at inside <;> simpa using inside
    exact same ▸ belongs
  · intro belongs
    exact ⟨'*', belongs, by simp⟩

/-- A text of a rule is read as the comparison with what is written, as a pattern if there is a
star in it. -/
theorem predicate_escaped (field : Field) (content : String) (style : Yaml.Style) (tagged : Bool)
    (line : Nat) :
    predicate field .eq
        (.scalar { text := escaping.escape .value content, style, tagged, line }) =
      [.leaf (.comparison field .eq
        (if '*' ∈ content.toList then .pattern (escaping.escape .value content) true
          else .text (escaping.escape .value content)) {})] := by
  have promoted := promoteWildcards_guarded (guarded_escapeChars content.toList)
  have read : predicate field .eq
        (.scalar { text := escaping.escape .value content, style, tagged, line }) =
      [.leaf (.comparison field .eq
        (patternValue ['*'] (escaping.escapeChars .value content.toList)) {})] := by
    simp [predicate, Yaml.Node.isNull, scalarValue, Escaping.escape, promoted]
  rw [read]
  by_cases starred : '*' ∈ content.toList
  · rw [if_pos starred, patternValue_starred ((star_mem_escapeChars _).mpr starred)]
    rfl
  · have plain := fun inside => starred ((star_mem_escapeChars _).mp inside)
    rw [if_neg starred, patternValue_plain plain]
    rfl

/-- The entry that is written for an equality with a text holds that text with a backslash in front
of each star and each question mark. As a string under the same field it is read as an equality
with what was written, which is a pattern if it has a star in it. So the comparison comes back
if and only if its text has neither a star nor a question mark. -/
theorem predicate_entryFor_iff (field : Field) (name content : String) (style : Yaml.Style)
    (tagged : Bool) (line : Nat) :
    ∃ written, entryFor name .eq (.text content) = .ok ⟨name, .text written⟩ ∧
      predicate field .eq (.scalar { text := written, style, tagged, line }) =
        [.leaf (.comparison field .eq
          (if '*' ∈ content.toList then .pattern written true else .text written) {})] ∧
      (predicate field .eq (.scalar { text := written, style, tagged, line }) =
          [.leaf (.comparison field .eq (.text content) {})] ↔
        '*' ∉ content.toList ∧ '?' ∉ content.toList) := by
  have read := predicate_escaped field content style tagged line
  refine ⟨escaping.escape .value content, ?_, read, ?_⟩
  · simp [entryFor, itemOf, modifierOf, bind, Except.bind, pure, Except.pure]
  · rw [read, ← escapeChars_eq_self_iff]
    by_cases starred : '*' ∈ content.toList
    · have changed : escaping.escapeChars .value content.toList ≠ content.toList :=
        fun same => ((escapeChars_eq_self_iff _).mp same).1 starred
      simp [starred, changed]
    · simp only [starred, ↓reduceIte, List.cons.injEq, and_true, Token.leaf.injEq,
        Leaf.comparison.injEq, true_and, Value.text.injEq]
      rw [Escaping.escape, ← String.toList_inj, String.toList_ofList]

/-- The text `a*b` is written with a backslash in front of its star and read as a pattern that has
the backslash in it. -/
theorem star_keeps_backslash :
    let read := predicate { name := "f" } .eq (.scalar { text := "a\\*b" })
    entryFor "f" .eq (.text "a*b") = .ok ⟨"f", .text "a\\*b"⟩ ∧
    read = [.leaf (.comparison { name := "f" } .eq (.pattern "a\\*b" true) {})] ∧
    read ≠ [.leaf (.comparison { name := "f" } .eq (.text "a*b") {})] := by
  intro read
  have value : read = [.leaf (.comparison { name := "f" } .eq (.pattern "a\\*b" true) {})] := rfl
  refine ⟨rfl, value, ?_⟩
  rw [value]
  simp

end Sigma

end Detection

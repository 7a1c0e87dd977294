import Detection.Language.Axon
import Detection.Proofs.Alternations
import Detection.Proofs.ConditionTokens

/-!
# Searches for texts on Axon

A search for a text in a field is one clause, or, if the value has wildcards or bars, a condition of
clauses for the parts between these. A value that has nothing but wildcards and bars leaves no part
to search for, and what is written for it is a pair of parentheses with nothing between them. That
is the only way in which a search comes to test nothing.
-/
namespace Detection

open Text

/-- The text of a condition has a clause in it. -/
theorem Operand.exists_clause_infix (wording : Wording) (operand : Operand) :
    ∃ leaf, (wording.clause leaf).toList <:+: (operand.text wording).toList := by
  induction operand with
  | clause leaf => exact ⟨leaf, List.infix_rfl⟩
  | negated operand ih =>
    obtain ⟨leaf, inside⟩ := ih
    refine ⟨leaf, inside.trans ?_⟩
    rw [text, String.toList_append]
    exact (List.suffix_append _ _).isInfix
  | enclosed connective first others ih _ =>
    obtain ⟨leaf, inside⟩ := ih
    refine ⟨leaf, inside.trans ?_⟩
    rw [text, String.toList_append, String.toList_append]
    exact (prefix_join _ _ _).isInfix.trans (List.infix_append _ _ _)

namespace Axon

/-- The field that is searched: without one, the whole message. -/
def searchedField (field : String) : String :=
  if field = "" then rawField else field

/-- The search for one text in a field. -/
def containingClause (field part : String) : String :=
  field ++ " CONTAINS " ++ quoted part

/-- The words and clauses of searches in a field. -/
def searchWording (field : String) : Wording :=
  Alternation.wording "OR" "AND" (containingClause field)

/-- A text tests something: it has a clause that searches in the field, and it is a condition of
such clauses, in which every pair of parentheses has an operand between them. -/
structure Tests (field text : String) : Prop where
  clause : ∃ part, (containingClause field part).toList <:+: text.toList
  condition : ∃ search : Operand, search.text (searchWording field) = text

/-- A value that is searched for in parts, and that has none. -/
def AsksNothing (value : Value) : Prop :=
  ∃ content, value.content = .ok content ∧ (value.isSpecial = true ∨ '|' ∈ content.toList) ∧
    ∀ c ∈ content.toList, c = '|' ∨ c = '*'

/-- Every condition of searches tests something. -/
theorem tests_of_condition {field text : String} {search : Operand}
    (written : search.text (searchWording field) = text) : Tests field text := by
  obtain ⟨leaf, inside⟩ := search.exists_clause_infix (searchWording field)
  exact ⟨⟨leaf.asked, written ▸ inside⟩, search, written⟩

/-- What tests something is longer than a pair of parentheses with NOT in front of it. -/
theorem Tests.length_lt {field text : String} (tests : Tests field text) :
    "NOT ()".length < text.length := by
  obtain ⟨part, inside⟩ := tests.clause
  have within := inside.length_le
  have word : "NOT ()".length < " CONTAINS ".length := by decide
  simp only [containingClause, String.toList_append, List.length_append, String.length_toList]
    at within
  omega

theorem Tests.negated {field text : String} (tests : Tests field text) :
    Tests field ("NOT " ++ text) := by
  obtain ⟨search, rfl⟩ := tests.condition
  have written : (Operand.negated search).text (searchWording field) =
      "NOT " ++ search.text (searchWording field) := rfl
  exact tests_of_condition written

section Containing

variable {field : String} {value : Value} {text : String}

/-- A search is one clause for a value without wildcards and bars. For any other value it is the
search for an alternation. -/
theorem containing_cases (rendered : containing field value = .ok text) :
    ∃ content, value.content = .ok content ∧
      (¬ (value.isSpecial = true ∨ '|' ∈ content.toList) ∧ text = containingClause field content ∨
        (value.isSpecial = true ∨ '|' ∈ content.toList) ∧
          text = alternationContains content "OR" "AND" (containingClause field)) := by
  cases formed : value.content with
  | error =>
    rw [containing, formed] at rendered
    cases rendered
  | ok content =>
    refine ⟨content, rfl, ?_⟩
    have bar : contains content "|" = decide ('|' ∈ content.toList) :=
      occurs_singleton '|' content.toList
    simp only [containing, formed, Except.orDefect, bind, Except.bind, bar] at rendered
    split at rendered
    · next plain =>
      exact .inl ⟨by simpa using plain, (Except.ok.inj rendered).symm⟩
    · next marked =>
      split at rendered
      · cases rendered
      · refine .inr ⟨?_, (Except.ok.inj rendered).symm⟩
        simpa [or_iff_not_imp_left] using marked

/-- A search tests something unless the value asks for nothing. -/
theorem tests_of_containing (rendered : containing field value = .ok text)
    (asks : ¬ AsksNothing value) : Tests field text := by
  obtain ⟨content, formed, ⟨_, rfl⟩ | ⟨marked, rfl⟩⟩ := containing_cases rendered
  · have written : (Operand.clause (Alternation.partLeaf content.toList)).text
        (searchWording field) = containingClause field content := by
      simp [Operand.text, searchWording, Alternation.wording]
    exact tests_of_condition written
  · have some : splitAlternation content.toList ≠ [] := fun none =>
      asks ⟨content, formed, marked, (splitAlternation_eq_nil_iff _).mp none⟩
    obtain ⟨search, found⟩ := Alternation.exists_asksFor "OR" "AND" (containingClause field) some
    exact tests_of_condition found.text

/-- For a value that asks for nothing, a pair of parentheses is written. -/
theorem eq_of_asksNothing (rendered : containing field value = .ok text)
    (nothing : AsksNothing value) : text = "()" := by
  obtain ⟨content, formed, marked, marks⟩ := nothing
  obtain ⟨own, same, ⟨plain, rfl⟩ | ⟨_, rfl⟩⟩ := containing_cases rendered
  · obtain rfl := Except.ok.inj (formed.symm.trans same)
    exact absurd marked plain
  · obtain rfl := Except.ok.inj (formed.symm.trans same)
    rw [Alternation.alternationContains_eq, (splitAlternation_eq_nil_iff _).mpr marks,
      List.map_nil]
    decide

end Containing

/-- A comparison by one of the searching operators is a search in the field, or the negation of
one. -/
theorem scalar_search {field text : String} {operator : Operator} {value : Value}
    (searching : operator = .contains ∨ operator = .notContains)
    (rendered : scalar field operator value = .ok text) :
    ∃ found, containing (searchedField field) value = .ok found ∧
      (text = found ∨ text = "NOT " ++ found) := by
  have own : fieldScalar (searchedField field) operator value = .ok text := by
    by_cases whole : field = ""
    · rcases searching with rfl | rfl <;> simpa [scalar, searchedField, whole] using rendered
    · simpa [scalar, searchedField, whole] using rendered
  rcases searching with rfl | rfl
  · exact ⟨text, own, .inl rfl⟩
  · obtain ⟨found, done, rest⟩ := exists_of_bind own
    exact ⟨found, done, .inr (Except.ok.inj rest).symm⟩

/-- Where a search for a text, or its negation, is written at all, it tests something exactly if the
value asks for something. A value asks for nothing if it is made of bars and stars alone and is
searched for in parts, which it is if it has a bar or its stars are wildcards. -/
theorem scalar_tests_iff (field : String) (operator : Operator) (value : Value) (text : String)
    (searching : operator = .contains ∨ operator = .notContains)
    (rendered : scalar field operator value = .ok text) :
    Tests (searchedField field) text ↔ ¬ AsksNothing value := by
  obtain ⟨found, done, written⟩ := scalar_search searching rendered
  constructor
  · intro tests nothing
    obtain rfl := eq_of_asksNothing done nothing
    rcases written with rfl | rfl
    · exact absurd tests.length_lt (by decide)
    · exact absurd tests.length_lt (by decide)
  · intro asks
    have tests := tests_of_containing done asks
    rcases written with rfl | rfl
    · exact tests
    · exact tests.negated

/-- The theorem at `a||*b`, from which the empty alternative and the empty part are dropped. -/
theorem scalar_tests_iff_dropped :
    scalar "f" .notContains (.text "a||*b") =
      .ok "NOT ((f CONTAINS \"a\") OR (f CONTAINS \"b\"))" ∧
    Tests "f" "NOT ((f CONTAINS \"a\") OR (f CONTAINS \"b\"))" := by
  have rendered : scalar "f" .notContains (.text "a||*b") =
      .ok "NOT ((f CONTAINS \"a\") OR (f CONTAINS \"b\"))" := rfl
  have asks : ¬ AsksNothing (.text "a||*b") := by
    rintro ⟨content, formed, _, marks⟩
    obtain rfl := Except.ok.inj formed
    exact absurd (marks 'a' (by decide)) (by decide)
  exact ⟨rendered, (scalar_tests_iff "f" .notContains _ _ (.inr rfl) rendered).mpr asks⟩

/-- The search for two bars is an empty pair of parentheses. -/
theorem not_tests_bars :
    scalar "f" .contains (.text "||") = .ok "()" ∧ ¬ Tests "f" "()" := by
  refine ⟨rfl, fun tests => ?_⟩
  exact absurd tests.length_lt (by decide)

end Axon

end Detection

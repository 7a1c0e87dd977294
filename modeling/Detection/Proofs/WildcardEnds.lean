import Detection.Lexer.Wildcard
import Mathlib.Data.List.Infix

/-!
# Wildcards at the ends of a value

Where the wildcard is a single character, only the first and the last character of a value decide
what is taken off it. A backslash in front of the last wildcard keeps that wildcard in the value,
whoever the backslash belongs to. What is left is a plain text or a pattern in which the wildcards
are written as stars.
-/
namespace Detection

open Text

variable {wildcard : Char} {text : List Char}

theorem occurs_singleton (mark : Char) (text : List Char) :
    occurs [mark] text = decide (mark ∈ text) := by
  induction text with
  | nil => rfl
  | cons c rest ih =>
    by_cases same : mark = c
    · simp [occurs, List.isPrefixOf, same]
    · simp [occurs, List.isPrefixOf, same, ih]

/-- Replacing a mark works character by character. -/
theorem replaceFrom_single (mark : Char) (new text : List Char) :
    replaceFrom mark [] new 0 text = text.flatMap fun c => if c = mark then new else [c] := by
  induction text with
  | nil => rfl
  | cons c rest ih =>
    by_cases same : c = mark
    · simp [replaceFrom, List.isPrefixOf, same, ih]
    · simp [replaceFrom, List.isPrefixOf, same, Ne.symm same, ih]

/-- A piece whose first character is not there is not replaced. -/
theorem replaceFrom_of_not_mem {first : Char} {others new text : List Char}
    (absent : first ∉ text) : replaceFrom first others new 0 text = text := by
  induction text with
  | nil => rfl
  | cons c text ih =>
    obtain ⟨differs, rest⟩ := not_or.mp (mt List.mem_cons.mpr absent)
    simp [replaceFrom, differs, ih rest]

theorem patternValue_plain (plain : wildcard ∉ text) :
    patternValue [wildcard] text = .text (String.ofList text) := by
  simp [patternValue, occurs_singleton, plain]

/-- With a wildcard in it a value becomes a pattern, in which the wildcards are stars. -/
theorem patternValue_wild (wild : wildcard ∈ text) :
    patternValue [wildcard] text =
      .pattern (String.ofList (text.map fun c => if c = wildcard then '*' else c)) true := by
  have each : ∀ c, (if c = wildcard then ['*'] else [c]) =
      [if c = wildcard then '*' else c] := by
    intro c
    split <;> rfl
  simp [patternValue, occurs_singleton, wild, replaceChars, replaceFrom_single, each,
    List.map_eq_flatMap]

/-- With a star in it a value becomes a pattern with the same text. -/
theorem patternValue_starred (starred : '*' ∈ text) :
    patternValue ['*'] text = .pattern (String.ofList text) true := by
  have same : ∀ c, (if c = '*' then '*' else c) = c := by
    intro c
    split <;> simp_all
  simp [patternValue_wild starred, same]

/-- A wildcard at the beginning of a text is taken off. -/
theorem dropLeadingWildcard_cons (wildcard : Char) (rest : List Char) :
    dropLeadingWildcard [wildcard] (wildcard :: rest) = (true, rest) := by
  simp [dropLeadingWildcard, List.isPrefixOf?]

/-- Nothing is taken off the beginning of a text that starts otherwise. -/
theorem dropLeadingWildcard_other (other : text.head? ≠ some wildcard) :
    dropLeadingWildcard [wildcard] text = (false, text) := by
  cases text with
  | nil => rfl
  | cons c rest =>
    have differs : wildcard ≠ c := fun same => other (congrArg some same.symm)
    simp [dropLeadingWildcard, List.isPrefixOf?, differs]

/-- A wildcard at the end of a text is taken off unless a backslash stands in front of it. -/
theorem dropTrailingWildcard_concat (wildcard : Char) (text : List Char) :
    dropTrailingWildcard [wildcard] (text ++ [wildcard]) =
      if text.getLast? = some '\\' then (false, text ++ [wildcard]) else (true, text) := by
  have ends : endsWith [wildcard] (text ++ [wildcard]) = true :=
    List.isSuffixOf_iff_suffix.mpr (List.suffix_append text [wildcard])
  have escaped : endsWith ['\\', wildcard] (text ++ [wildcard]) = true ↔
      text.getLast? = some '\\' := by
    rw [endsWith, List.isSuffixOf_iff_suffix, ← List.singleton_suffix_iff_getLast?_eq_some]
    exact @List.suffix_append_self_iff _ ['\\'] text [wildcard]
  by_cases last : text.getLast? = some '\\'
  · simp [dropTrailingWildcard, escaped.mpr last, last]
  · have kept : endsWith ['\\', wildcard] (text ++ [wildcard]) = false :=
      Bool.eq_false_iff.mpr fun ends => last (escaped.mp ends)
    simp [dropTrailingWildcard, ends, kept, last]

/-- Nothing is taken off the end of a text that ends otherwise. -/
theorem dropTrailingWildcard_other (other : text.getLast? ≠ some wildcard) :
    dropTrailingWildcard [wildcard] text = (false, text) := by
  have differs : endsWith [wildcard] text = false := by
    rw [endsWith, Bool.eq_false_iff]
    intro ends
    have last : [wildcard] <:+ text := List.isSuffixOf_iff_suffix.mp ends
    exact other (List.singleton_suffix_iff_getLast?_eq_some.mp last)
  simp [dropTrailingWildcard, differs]

/-- A value without a star stays the value of its comparison. -/
theorem promoteWildcards_plain (operator : Operator) (plain : '*' ∉ text) :
    promoteWildcards operator text ['*'] = { operator, value := .text (String.ofList text) } := by
  have whole : text ≠ ['*'] := by
    rintro rfl
    exact plain List.mem_cons_self
  simp [promoteWildcards, whole, dropLeadingWildcard_other (mt List.mem_of_mem_head? plain),
    dropTrailingWildcard_other (mt List.mem_of_mem_getLast? plain), patternValue_plain plain]

/-- A star in front of a value makes an ending of an equality. -/
theorem promoteWildcards_ending (some : text ≠ []) (plain : '*' ∉ text) :
    promoteWildcards .eq ('*' :: text) ['*'] =
      { operator := .endsWith, value := .text (String.ofList text),
        wildcards := ⟨true, false⟩ } := by
  simp [promoteWildcards, some, dropLeadingWildcard_cons,
    dropTrailingWildcard_other (mt List.mem_of_mem_getLast? plain), patternValue_plain plain]

/-- A text between two stars is searched for inside the values of a field, unless it ends in a
backslash. -/
theorem promoteWildcards_inside (plain : '*' ∉ text) :
    promoteWildcards .eq ('*' :: (text ++ ['*'])) ['*'] =
      if text.getLast? = some '\\' then
        { operator := .endsWith, value := .pattern (String.ofList (text ++ ['*'])) true,
          wildcards := ⟨true, false⟩ }
      else
        { operator := .contains, value := .text (String.ofList text),
          wildcards := ⟨true, true⟩ } := by
  have starred : '*' ∈ text ++ ['*'] := by simp
  by_cases last : text.getLast? = some '\\'
  · simp [promoteWildcards, dropLeadingWildcard_cons, dropTrailingWildcard_concat, last,
      patternValue_starred starred]
  · simp [promoteWildcards, dropLeadingWildcard_cons, dropTrailingWildcard_concat, last,
      patternValue_plain plain]

/-- A text in front of a star is searched for at the beginning, unless it ends in a backslash. -/
theorem promoteWildcards_beginning (some : text ≠ []) (plain : '*' ∉ text) :
    promoteWildcards .eq (text ++ ['*']) ['*'] =
      if text.getLast? = Option.some '\\' then
        { operator := .eq, value := .pattern (String.ofList (text ++ ['*'])) true }
      else
        { operator := .startsWith, value := .text (String.ofList text),
          wildcards := ⟨false, true⟩ } := by
  have first : (text ++ ['*']).head? ≠ Option.some '*' := by
    rw [List.head?_append_of_ne_nil _ some]
    exact mt List.mem_of_mem_head? plain
  have starred : '*' ∈ text ++ ['*'] := by simp
  by_cases last : text.getLast? = Option.some '\\'
  · simp [promoteWildcards, some, dropLeadingWildcard_other first, dropTrailingWildcard_concat,
      last, patternValue_starred starred]
  · simp [promoteWildcards, some, dropLeadingWildcard_other first, dropTrailingWildcard_concat,
      last, patternValue_plain plain]

/-- Every star of a text stands behind a backslash. -/
def Guarded (text : List Char) : Prop :=
  ∀ before after, text = before ++ '*' :: after → before.getLast? = some '\\'

theorem promoteWildcards_guarded (guarded : Guarded text) :
    promoteWildcards .eq text ['*'] = { operator := .eq, value := patternValue ['*'] text } := by
  have first : text.head? ≠ some '*' := by
    intro star
    obtain ⟨rest, rfl⟩ := List.head?_eq_some_iff.mp star
    have marked := guarded [] rest rfl
    contradiction
  have whole : text ≠ ['*'] := by
    rintro rfl
    contradiction
  have trailing : dropTrailingWildcard ['*'] text = (false, text) := by
    by_cases last : text.getLast? = some '*'
    · obtain ⟨before, rfl⟩ := List.getLast?_eq_some_iff.mp last
      rw [dropTrailingWildcard_concat, if_pos (guarded before [] rfl)]
    · exact dropTrailingWildcard_other last
  simp [promoteWildcards, whole, dropLeadingWildcard_other first, trailing]

end Detection

import Detection.Language.Aql
import Detection.Language.LogScale
import Detection.Language.Spl
import Mathlib.Data.List.Infix

/-!
# What recognisers leave

A recogniser that finds something takes at least one character from the front of a text and leaves
the rest as it is. Where a text has to begin with something that may be empty, the rest is an end of
the text at least.
-/
namespace Detection

open Text Lexer

variable {text rest found : List Char} {dialect : Dialect}

/-- Something is taken from the front of a text. -/
def Passes (text rest : List Char) : Prop :=
  ∃ taken, taken ≠ [] ∧ text = taken ++ rest

namespace Passes

variable {middle tail : List Char} {c : Char}

theorem cons (inside : rest <:+ tail) : Passes (c :: tail) rest := by
  obtain ⟨taken, rfl⟩ := inside
  exact ⟨c :: taken, List.cons_ne_nil _ _, rfl⟩

theorem suffix (passes : Passes text rest) : rest <:+ text := by
  obtain ⟨taken, _, rfl⟩ := passes
  exact List.suffix_append _ _

theorem length_lt (passes : Passes text rest) : rest.length < text.length := by
  obtain ⟨taken, some, rfl⟩ := passes
  simpa [List.length_pos_iff] using some

theorem trans_suffix (passes : Passes text middle) (inside : rest <:+ middle) :
    Passes text rest := by
  obtain ⟨taken, some, rfl⟩ := passes
  obtain ⟨more, rfl⟩ := inside
  exact ⟨taken ++ more, by simp [some], by simp⟩

theorem of_suffix (inside : middle <:+ text) (passes : Passes middle rest) : Passes text rest := by
  obtain ⟨more, rfl⟩ := inside
  obtain ⟨taken, some, rfl⟩ := passes
  exact ⟨more ++ taken, by simp [some], by simp⟩

theorem span {accepts : Char → Bool} (some : text.takeWhile accepts ≠ []) :
    Passes text (text.dropWhile accepts) :=
  ⟨_, some, List.takeWhile_append_dropWhile.symm⟩

end Passes

theorem name_passes {starts continues : Char → Bool}
    (read : name? starts continues text = some (found, rest)) : Passes text rest := by
  cases text with
  | nil => cases read
  | cons =>
    rw [name?] at read
    split at read <;> cases read
    exact .cons (List.dropWhile_suffix _)

theorem number_passes (read : number? text = some (found, rest)) : Passes text rest := by
  have fraction (text : List Char) : (fraction text).2 <:+ text := by
    rw [Lexer.fraction.eq_def]
    split
    · dsimp only [spanOf]
      split
      · exact List.suffix_rfl
      · exact (List.dropWhile_suffix _).trans (List.suffix_cons _ _)
    · exact List.suffix_rfl
  have unsigned {text found : List Char} (read : unsigned? text = some (found, rest)) :
      Passes text rest := by
    rw [unsigned?] at read
    dsimp only [spanOf] at read
    split at read <;> cases read
    next some => exact (Passes.span (by simpa using some)).trans_suffix (fraction _)
  rw [number?.eq_def] at read
  split at read
  · obtain ⟨_, digits, same⟩ := Option.map_eq_some_iff.mp read
    cases same
    exact .cons (unsigned digits).suffix
  · exact unsigned read

theorem escapedBody_suffix {mark : Char} (read : escapedBody? mark text = some (found, rest)) :
    rest <:+ text := by
  fun_induction escapedBody? mark text generalizing found with
  | case3 c text _ ih =>
    obtain ⟨_, inner, same⟩ := Option.map_eq_some_iff.mp read
    cases same
    exact (ih inner).trans ⟨['\\', c], rfl⟩
  | case4 =>
    cases read
    exact List.suffix_cons _ _
  | case6 c text _ _ _ ih =>
    obtain ⟨_, inner, same⟩ := Option.map_eq_some_iff.mp read
    cases same
    exact (ih inner).trans (List.suffix_cons _ _)
  | case1 | case2 | case5 => cases read

theorem doubledBody_suffix {mark : Char} (read : doubledBody? mark text = some (found, rest)) :
    rest <:+ text := by
  fun_induction doubledBody? mark text generalizing found rest with
  | case1 => cases read
  | case2 first text _ ih =>
    obtain ⟨_, inner, same⟩ := Option.map_eq_some_iff.mp read
    cases same
    exact (ih inner).trans (List.suffix_cons _ _)
  | case4 first _ second text _ body behind inner ih =>
    cases read
    exact (ih inner).trans ⟨[first, second], rfl⟩
  | case3 | case5 | case6 =>
    cases read
    exact List.suffix_cons _ _

theorem quoted_passes {mark : Char} {quoting : Quoting}
    (read : quoted? mark quoting text = some (found, rest)) : Passes text rest := by
  cases text with
  | nil => cases read
  | cons =>
    rw [quoted?.eq_def] at read
    dsimp only at read
    split at read
    · cases quoting with
      | escaped => exact .cons (escapedBody_suffix read)
      | doubled => exact .cons (doubledBody_suffix read)
    · cases read

theorem slashed_passes (read : slashed? text = some (found, rest)) : Passes text rest := by
  obtain ⟨_, inner, same⟩ := Option.map_eq_some_iff.mp read
  cases same
  exact (quoted_passes inner).trans_suffix (List.dropWhile_suffix _)

theorem wordRest_passes {fold : Bool} {word : List Char}
    (read : wordRest? fold word text = some rest) :
    rest <:+ text ∧ (word ≠ [] → Passes text rest) := by
  fun_induction wordRest? fold word text with
  | case1 text =>
    cases read
    exact ⟨List.suffix_rfl, absurd rfl⟩
  | case2 word c text _ ih =>
    have passes : Passes (c :: text) rest := .cons ((ih read).1.trans (List.dropWhile_suffix _))
    exact ⟨passes.suffix, fun _ => passes⟩
  | case5 letter word _ c text _ ih =>
    have passes : Passes (c :: text) rest := .cons (ih read).1
    exact ⟨passes.suffix, fun _ => passes⟩
  | case3 | case4 | case6 | case7 => cases read

namespace Dialect

theorem symbolAfter_suffix {spaced : Bool}
    (read : dialect.symbolAfter? spaced text = some (found, rest)) : rest <:+ text := by
  obtain ⟨spelling, _, read⟩ := List.exists_of_findSome?_eq_some read
  dsimp only at read
  split at read
  · split at read
    · rw [wholeWord?] at read
      split at read
      · cases read
      · next word =>
        dsimp only at read
        split at read <;> cases read
        exact (wordRest_passes word).1
    · cases read
  · obtain ⟨_, symbol, same⟩ := Option.map_eq_some_iff.mp read
    cases same
    exact ⟨_, List.isPrefixOf?_eq_some_iff_append_eq.mp symbol⟩

/-- A dialect whose field names and connectives are not empty. -/
structure Solid (dialect : Dialect) : Prop where
  field : ∀ {text name rest}, dialect.field text = some (name, rest) → Passes text rest
  connectives : ∀ entry ∈ dialect.connectives, entry.1.toList ≠ []

/-- A field and its operator are passed. -/
theorem Solid.head_passes (solid : dialect.Solid) {head : Head}
    (read : dialect.head? text = some head) : Passes text head.rest := by
  rw [head?] at read
  split at read
  · cases read
  · next name =>
    obtain ⟨⟨symbol, after⟩, operator, rfl⟩ := Option.map_eq_some_iff.mp read
    exact (solid.field name).trans_suffix ((List.dropWhile_suffix _).trans
      ((symbolAfter_suffix operator).trans (List.dropWhile_suffix _)))

/-- A connective is one of the dialect, and it is passed. -/
theorem Solid.connective_passes (solid : dialect.Solid) {token : Token}
    (read : dialect.connective? text = some (token, rest)) : Passes text rest := by
  obtain ⟨entry, listed, read⟩ := List.exists_of_findSome?_eq_some read
  dsimp only at read
  split at read
  · next word =>
    split at read <;> cases read
    exact (wordRest_passes word).2 (solid.connectives _ listed)
  · cases read

end Dialect

theorem Spl.dialect_solid : Spl.dialect.Solid := ⟨name_passes, by decide⟩

theorem LogScale.dialect_solid : LogScale.dialect.Solid := ⟨name_passes, by decide⟩

theorem Aql.dialect_solid : Aql.dialect.Solid where
  field {text name rest} read := by
    simp only [dialect, field?, Option.orElse_eq_orElse, Option.orElse_eq_or,
      Option.or_eq_some_iff] at read
    rcases read with payload | ⟨_, quoted | ⟨_, plain⟩⟩
    · obtain ⟨_, word, same⟩ := Option.map_eq_some_iff.mp payload
      cases same
      exact (wordRest_passes word).2 (by decide)
    · split at quoted
      · next tail _ =>
        split at quoted
        · next after behind =>
          have inside : '"' :: after <:+ tail := behind ▸ List.dropWhile_suffix (· != '"')
          split at quoted <;> cases quoted
          exact .cons ((List.suffix_cons _ _).trans inside)
        · cases quoted
      · cases quoted
    · exact name_passes plain
  connectives := by decide

end Detection

import Detection.Proofs.ByteOrder
import Detection.Proofs.SettledTokens

/-!
# Every part of a text is read

The lexer goes through a text in two loops, over the steps of the walk and over the items of a list.
Every turn of them takes something from the text and leaves an end of it, so that the loops come to
an end with the text. If reading fails, it fails at a place in the text, and the message shows what
stands there. If it succeeds, the text is made of what the steps have taken and of gaps.
-/
namespace Detection

open Text Lexer

variable {text rest : List Char} {tokens : List Token} {dialect : Dialect} {stop : LexStop}

/-! ## Bytes -/

namespace Dialect

theorem scalar_stop {inList : Bool} (read : dialect.scalar inList text = .error stop) :
    stop.rest = text := by
  rw [scalar] at read
  split at read
  · cases read
  · split at read <;> cases read
    rfl

theorem listItems_stop {items : List Value} (read : dialect.listItems items text = .error stop) :
    stop.rest <:+ text := by
  fun_induction listItems dialect items text with
  | case2 items text rest closed _ =>
    cases read
    exact closed ▸ List.dropWhile_suffix _
  | case3 items text _ failure failed =>
    cases read
    exact scalar_stop failed ▸ List.dropWhile_suffix _
  | case4 =>
    cases read
    exact List.dropWhile_suffix _
  | case5 =>
    cases read
    exact List.nil_suffix
  | case7 items text literal rest behind separated _ _ found ih =>
    exact (ih read).trans (item_passes found separated).suffix
  | case8 items text literal rest behind separated _ _ found =>
    cases read
    exact (item_passes found separated).suffix
  | case9 items text literal rest _ found =>
    cases read
    exact (List.dropWhile_suffix _).trans
      ((of_scalar found).2.suffix.trans (List.dropWhile_suffix _))
  | case1 | case6 => cases read

theorem Solid.comparison_stop (solid : dialect.Solid)
    (read : dialect.comparison? text = .error stop) : stop.rest <:+ text := by
  rw [comparison?] at read
  split at read
  · cases read
  · next head named =>
    have inside := (solid.head_passes named).suffix
    dsimp only at read
    split at read
    · rcases cases_of_bind read with failed | ⟨_, _, failed⟩
      · unfold list at failed
        split at failed
        · next behind begins =>
          exact (listItems_stop failed).trans ((begins ▸ List.suffix_cons _ _).trans inside)
        · cases failed
          exact inside
      · cases failed
    · rcases cases_of_bind read with failed | ⟨_, _, failed⟩
      · exact scalar_stop failed ▸ inside
      · split at failed
        · cases failed
          exact List.suffix_rfl
        · split at failed <;> cases failed

theorem keyword_stop (read : dialect.keyword? text = .error stop) : stop.rest = text := by
  rw [keyword?] at read
  split at read
  · rcases cases_of_bind read with failed | ⟨_, _, failed⟩
    · exact scalar_stop failed
    · cases failed
  · split at read <;> cases read

theorem Solid.step_stop (solid : dialect.Solid) (read : dialect.step text = .error stop) :
    stop.rest <:+ text := by
  unfold step at read
  split at read
  · cases read
  · cases read
  · split at read
    · cases read
    · rcases cases_of_bind read with failed | ⟨_, _, failed⟩
      · exact solid.comparison_stop failed
      · split at failed
        · cases failed
        · dsimp only at failed
          split at failed
          · rcases cases_of_bind failed with failed | ⟨_, _, failed⟩
            · exact keyword_stop failed ▸ List.suffix_rfl
            · split at failed <;> cases failed
              exact List.suffix_rfl
          · cases failed
            exact List.suffix_rfl

theorem Solid.tokensFrom_stop (solid : dialect.Solid)
    (read : dialect.tokensFrom text = .error stop) : stop.rest <:+ text := by
  fun_induction tokensFrom dialect text with
  | case2 text _ _ failed =>
    cases read
    exact (solid.step_stop failed).trans (List.dropWhile_suffix _)
  | case3 text first rest _ _ later _ stepped ih =>
    cases read
    exact (ih later).trans ((solid.step_passes stepped).suffix.trans (List.dropWhile_suffix _))
  | case5 =>
    cases read
    exact List.dropWhile_suffix _
  | case1 | case4 => cases read

/-! ## Loops -/

/-- A text that is made of gaps and of what the steps have taken, with their tokens. -/
inductive Covered (dialect : Dialect) : List Char → List Token → Prop
  | done {gap : List Char} (blank : ∀ c ∈ gap, isGap c = true) : Covered dialect gap []
  | span {gap taken rest : List Char} {tokens others : List Token}
      (blank : ∀ c ∈ gap, isGap c = true) (some : taken ≠ [])
      (read : dialect.step (taken ++ rest) = .ok (tokens, rest))
      (covered : Covered dialect rest others) :
      Covered dialect (gap ++ (taken ++ rest)) (tokens ++ others)

theorem Solid.covered (solid : dialect.Solid) (read : dialect.tokensFrom text = .ok tokens) :
    dialect.Covered text tokens := by
  have blank (text : List Char) : ∀ c ∈ text.takeWhile isGap, isGap c = true :=
    List.all_eq_true.mp List.all_takeWhile
  fun_induction tokensFrom dialect text generalizing tokens with
  | case1 text none =>
    cases read
    have whole := List.takeWhile_append_dropWhile (p := isGap) (l := text)
    rw [none, List.append_nil] at whole
    exact whole ▸ .done (blank text)
  | case4 text first rest shorter others later start stepped ih =>
    cases read
    obtain ⟨taken, some, split⟩ := solid.step_passes stepped
    rw [← List.takeWhile_append_dropWhile (p := isGap) (l := text), split]
    exact .span (blank text) some (split ▸ stepped) (ih later)
  | case2 | case3 | case5 => cases read

end Dialect

end Detection

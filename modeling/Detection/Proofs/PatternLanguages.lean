import Detection.Proofs.PatternMatching

/-!
# The languages of composed patterns

Whatever a search finds, in any text, is a text of the language of its pattern. For patterns that
are composed of classes of characters the language is described here: a sequence has one text behind
the other, a sequence of classes has one character for each, and a given text in any letter case has
the characters that fold to the same keys.
-/
namespace Detection.Text.Pattern

/-- Whatever a search finds is a text of the language. -/
theorem mem_language_of_mem_findAll {pattern : Pattern} {text found : List Char}
    (member : found ∈ pattern.findAll text) : found ∈ pattern.language := by
  obtain ⟨groups, hit⟩ := mem_findAll.mp member
  obtain ⟨front, rest, later, first, rfl, _⟩ := exists_hit_of_mem_pieces hit
  obtain ⟨taken, own, leads⟩ :=
    pattern.exists_mem_language_of_mem_ends (mem_ends_of_hitAt first).1
  obtain rfl : found = taken := List.append_cancel_right leads.rest
  exact own

theorem takes_atMost (body : Pattern) (count : Nat) (c : Char) :
    (atMost body (count + 1)).takes c = body.takes c := by
  induction count with
  | zero => simp [atMost, optional, takes]
  | succ count ih =>
    rw [atMost, optional, takes, takes, Bool.or_false, takes, ih, Bool.or_self]

theorem language_seq (patterns : List Pattern) :
    (seq patterns).language = (patterns.map language).prod := by
  induction patterns with
  | nil => rfl
  | cons first others ih =>
    cases others with
    | nil => simp [seq]
    | cons =>
      rw [List.map_cons, List.prod_cons, ← ih]
      rfl

/-- A sequence of classes of characters describes one character for each. -/
theorem mem_language_classes {classes : List (Char → Bool)} {text : List Char} :
    text ∈ (seq (classes.map one)).language ↔
      List.Forall₂ (fun accepts c => accepts c = true) classes text := by
  rw [language_seq]
  induction classes generalizing text with
  | nil => simp
  | cons accepts others ih =>
    rw [List.map_cons, List.map_cons, List.prod_cons, List.forall₂_cons_left_iff]
    constructor
    · rintro ⟨_, ⟨c, accepted, rfl⟩, rest, member, rfl⟩
      exact ⟨c, rest, accepted, ih.mp member, rfl⟩
    · rintro ⟨c, rest, accepted, each, rfl⟩
      exact ⟨[c], ⟨c, accepted, rfl⟩, rest, ih.mpr each, rfl⟩

/-- A number of characters of a class. -/
theorem mem_language_times {count : Nat} {accepts : Char → Bool} {text : List Char} :
    text ∈ (times count (one accepts)).language ↔
      text.length = count ∧ ∀ c ∈ text, accepts c = true := by
  rw [times, ← List.map_replicate, mem_language_classes]
  induction count generalizing text with
  | zero => cases text <;> simp
  | succ count ih =>
    cases text with
    | nil => simp [List.replicate_succ]
    | cons =>
      rw [List.replicate_succ, List.forall₂_cons, ih, List.forall_mem_cons,
        List.length_cons, Nat.add_right_cancel_iff]
      exact and_left_comm

/-- Characters that have the same keys as those of a text. -/
theorem mem_language_keys (key : Char → Char) {text found : List Char} :
    found ∈ (seq (text.map fun c => one fun x => key x == key c)).language ↔
      found.map key = text.map key := by
  have classes : (text.map fun c => one fun x => key x == key c) =
      (text.map fun c x => key x == key c).map one := by
    rw [List.map_map]
    rfl
  have same : (fun c x => (key x == key c) = true) = fun c x => key c = key x := by
    funext c x
    rw [beq_iff_eq, @eq_comm _ (key x)]
  rw [classes, mem_language_classes, List.forall₂_map_left_iff, same, @eq_comm _ (found.map key),
    ← List.forall₂_eq_eq_eq, List.forall₂_map_left_iff, List.forall₂_map_right_iff]

theorem mem_language_literal {text : String} {found : List Char} :
    found ∈ (literal text).language ↔ found = text.toList := by
  have same := @mem_language_keys id text.toList found
  rw [List.map_id, List.map_id] at same
  exact same

/-- The characters of a text in any letter case. -/
theorem mem_language_anyCase {text : String} {found : List Char} :
    found ∈ (anyCase text).language ↔ found.map foldKey = text.toList.map foldKey :=
  mem_language_keys foldKey

end Detection.Text.Pattern

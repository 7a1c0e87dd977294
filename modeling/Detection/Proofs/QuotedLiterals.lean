import Detection.Proofs.Cleaning
import Detection.Proofs.SelectorCuts
import Mathlib.Data.List.Perm.Basic

/-!
# Quoted texts in a query without its selectors

A selector that begins and ends outside quotes takes whole quoted texts out of a query and
leaves the others as they are. The cleaning behind it does not know about quotes: it treats
what stands between two quotes like any other stretch of the query. A quoted text gets through
it unchanged exactly if there is nothing in it to clean, which is to say no empty parentheses,
no connective next to a parenthesis, no connectives in a row and no white space but single
blanks.
-/
namespace Detection.Selector

open Text Pattern Quoting

/-- A quoted text: its mark, and what stands between the two marks. -/
structure Literal where
  mark : Char
  body : List Char
  deriving DecidableEq

/-- A quoted text with its body changed. -/
def Literal.mapBody (change : List Char → List Char) (literal : Literal) : Literal :=
  { literal with body := change literal.body }

namespace Quoting

/-- The mark that closes the quoted text at a place. -/
def mark : Quoting → Char
  | single => '\''
  | double _ | outside => '"'

/-- The quoted texts that are closed in a text. The body is what stands in front of the text
if it begins inside quotes. -/
def literals (quoting : Quoting) (body : List Char) : List Char → List Literal
  | [] => []
  | c :: rest =>
    if quoting.isInside then
      if (quoting.next c).isInside then (quoting.next c).literals (body ++ [c]) rest
      else ⟨quoting.mark, body⟩ :: (quoting.next c).literals [] rest
    else (quoting.next c).literals [] rest

theorem eq_outside {quoting : Quoting} (notInside : quoting.isInside = false) :
    quoting = outside := by
  cases quoting with
  | outside => rfl
  | double | single => contradiction

theorem literals_outside (body text : List Char) :
    outside.literals body text = outside.literals [] text := by
  cases text <;> rfl

/-- The place behind a character that is no wall: its protection is used up. -/
def calm : Quoting → Quoting
  | double _ => double false
  | quoting => quoting

theorem isInside_calm (quoting : Quoting) : quoting.calm.isInside = quoting.isInside := by
  cases quoting <;> rfl

theorem next_of_free (quoting : Quoting) {c : Char} (free : isWall c = false) :
    quoting.next c = quoting.calm := by
  simp only [isWall, Bool.or_eq_false_iff, beq_eq_false_iff_ne, ne_eq] at free
  obtain ⟨⟨noDouble, noSingle⟩, noBackslash⟩ := free
  cases quoting with
  | outside => simp [next, calm, noDouble, noSingle]
  | double protect => cases protect <;> simp [next, calm, noDouble, noBackslash]
  | single => simp [next, calm, noSingle]

/-- Of a stretch without walls it only matters whether it is empty. -/
theorem after_of_free (quoting : Quoting) {text : List Char} (free : ∀ c ∈ text, isWall c = false) :
    quoting.after text = if text = [] then quoting else quoting.calm := by
  have calmed (quoting : Quoting) (text : List Char) (free : ∀ c ∈ text, isWall c = false) :
      quoting.calm.after text = quoting.calm := by
    induction text with
    | nil => rfl
    | cons c text ih =>
      obtain ⟨own, others⟩ := List.forall_mem_cons.mp free
      rw [after_cons, next_of_free _ own]
      cases quoting <;> exact ih others
  cases text with
  | nil => rfl
  | cons c text =>
    obtain ⟨own, others⟩ := List.forall_mem_cons.mp free
    rw [after_cons, next_of_free _ own, calmed quoting text others]
    rfl

/-- A stretch without walls closes nothing. -/
theorem literals_of_free (quoting : Quoting) (body : List Char) {text : List Char}
    (free : ∀ c ∈ text, isWall c = false) (rest : List Char) :
    quoting.literals body (text ++ rest) = (quoting.after text).literals (body ++ text) rest := by
  induction text generalizing quoting body with
  | nil => rw [List.append_nil]; rfl
  | cons c text ih =>
    obtain ⟨own, others⟩ := List.forall_mem_cons.mp free
    have still : (quoting.next c).isInside = quoting.isInside := by
      rw [next_of_free quoting own, isInside_calm]
    have more := ih (quoting.next c) (body ++ [c]) others
    rw [List.append_assoc] at more
    rw [List.cons_append, literals, still, after_cons]
    cases inside : quoting.isInside with
    | true => simpa using more
    | false =>
      rw [eq_outside (still.trans inside)] at more ⊢
      simpa [literals_outside] using more

/-- Where a text ends outside quotes, the quoted texts are those of the text and of what
follows it. -/
theorem literals_append {quoting : Quoting} {text : List Char}
    (ends : quoting.after text = outside) (body rest : List Char) :
    quoting.literals body (text ++ rest) =
      quoting.literals body text ++ outside.literals [] rest := by
  induction text generalizing quoting body with
  | nil =>
    obtain rfl : quoting = outside := ends
    exact literals_outside body rest
  | cons c text ih =>
    have later := @ih (quoting.next c) ends
    rw [List.cons_append, literals, literals]
    split
    · split
      · exact later _
      · rw [later, List.cons_append]
    · exact later _

/-- A stretch without walls at the end closes nothing. -/
theorem literals_append_free (quoting : Quoting) (body text : List Char) {more : List Char}
    (free : ∀ c ∈ more, isWall c = false) :
    quoting.literals body (text ++ more) = quoting.literals body text := by
  induction text generalizing quoting body with
  | nil =>
    have none := quoting.literals_of_free body free []
    rw [List.append_nil] at none
    rw [List.nil_append, none]
    rfl
  | cons c text ih =>
    rw [List.cons_append, literals, literals]
    simp only [ih]

end Quoting

/-- The quoted texts of a query, in order. A quoted text that is not closed is none. -/
def literals (text : List Char) : List Literal :=
  Quoting.outside.literals [] text

/-- A stretch without walls at the beginning has no quoted text. -/
theorem literals_free_append {taken : List Char} (free : ∀ c ∈ taken, isWall c = false)
    (text : List Char) : literals (taken ++ text) = literals text := by
  rw [literals, literals_of_free _ _ free, after_of_free _ free]
  split <;> exact literals_outside _ _

/-- Neither has one at the end. -/
theorem literals_append_free (text : List Char) {taken : List Char}
    (free : ∀ c ∈ taken, isWall c = false) : literals (text ++ taken) = literals text :=
  Quoting.literals_append_free _ _ text free

/-- Induction along the walls of a text. -/
@[elab_as_elim]
theorem wall_induction {motive : List Char → Prop}
    (free : ∀ text, (∀ c ∈ text, isWall c = false) → motive text)
    (wall : ∀ stretch mark tail, (∀ c ∈ stretch, isWall c = false) → isWall mark = true →
      motive tail → motive (stretch ++ mark :: tail)) (text : List Char) : motive text := by
  suffices ∀ stretch, (∀ c ∈ stretch, isWall c = false) → motive (stretch ++ text) from
    this [] (by simp)
  induction text with
  | nil => simpa using free
  | cons c text ih =>
    intro stretch stretchFree
    cases isWall : isWall c with
    | true => exact wall stretch c text stretchFree isWall (ih [] (by simp))
    | false =>
      have longer := ih (stretch ++ [c]) (by
        simpa [or_imp, forall_and, isWall] using stretchFree)
      simpa using longer

/-- A change that is made between walls separately changes the bodies of the quoted texts. The
induction goes from wall to wall, and what has been read of an open quoted text is changed
apart from what follows since it ends at a wall. -/
theorem ActsBetweenWalls.literals_change {change : List Char → List Char}
    (acts : ActsBetweenWalls change) (text : List Char) :
    literals (change text) = (literals text).map (Literal.mapBody change) := by
  suffices ∀ (quoting : Quoting) (body : List Char),
      (∀ more, change (body ++ more) = change body ++ change more) →
      quoting.literals (change body) (change text) =
        (quoting.literals body text).map (Literal.mapBody change) by
    have whole := this .outside [] (by simp [acts.nil])
    rwa [acts.nil] at whole
  induction text using wall_induction with
  | free text free =>
    intro quoting body _
    have none := quoting.literals_of_free body free []
    have also := quoting.literals_of_free (change body) (acts.free text free) []
    rw [List.append_nil] at none also
    rw [none, also]
    rfl
  | wall stretch mark tail free isWall ih =>
    intro quoting body apart
    have same : quoting.after (change stretch) = quoting.after stretch := by
      rw [after_of_free _ free, after_of_free _ (acts.free stretch free)]
      simp only [acts.nil_iff stretch]
    rw [acts.wall stretch mark tail isWall, literals_of_free _ _ (acts.free stretch free),
      Quoting.literals_of_free _ _ free, same, Quoting.literals, Quoting.literals]
    split
    · split
      · have wall : change (body ++ stretch ++ [mark]) =
            change body ++ change stretch ++ [mark] := by
          have ended := acts.wall stretch mark [] isWall
          rw [List.append_assoc, apart, ended, acts.nil, List.append_assoc]
        have later := ih ((quoting.after stretch).next mark)
          (body ++ stretch ++ [mark]) fun more => by
            have further := acts.wall stretch mark more isWall
            have text : body ++ stretch ++ [mark] ++ more = body ++ (stretch ++ mark :: more) := by
              simp
            rw [wall, text, apart, further]
            simp
        rwa [wall] at later
      · have later :=
          ih ((quoting.after stretch).next mark) [] (by simp [acts.nil])
        rw [acts.nil] at later
        rw [List.map_cons, later, Literal.mapBody, apart]
    · have later := ih ((quoting.after stretch).next mark) [] (by simp [acts.nil])
      rwa [acts.nil] at later

/-- A round of cleaning tidies the bodies of the quoted texts. -/
theorem literals_cleanOnce (text : List Char) :
    literals (cleanOnce text) = (literals text).map (Literal.mapBody tidy) := by
  obtain ⟨lead, leadFree, leadSplit⟩ := exists_append_dropLead (tidy text)
  obtain ⟨trail, trailFree, trailSplit⟩ := exists_dropTrail_append (dropLead (tidy text))
  rw [cleanOnce_eq, ← literals_append_free _ trailFree, ← trailSplit,
    ← literals_free_append leadFree, ← leadSplit, acts_tidy.literals_change]

/-- Cleaning tidies them in every round, and there is at least one. -/
theorem literals_cleanAll (text : List Char) :
    ∃ rounds, literals (cleanAll text) =
      (literals text).map (Literal.mapBody (tidy^[rounds + 1])) := by
  fun_induction cleanAll text with
  | case1 text shorter ih =>
    obtain ⟨rounds, later⟩ := ih
    refine ⟨rounds + 1, ?_⟩
    rw [later, literals_cleanOnce, List.map_map]
    rfl
  | case2 text => exact ⟨0, literals_cleanOnce text⟩

/-- At the end every run of white space in them becomes one blank. -/
theorem literals_clean (text : List Char) :
    ∃ rounds, literals (clean text) =
      (literals text).map (Literal.mapBody (collapse ∘ tidy^[rounds + 1])) := by
  obtain ⟨rounds, cleaned⟩ := literals_cleanAll text
  obtain ⟨lead, trail, leading, trailing, split⟩ :=
    exists_trimBy isBlank (collapse (cleanAll text))
  refine ⟨rounds, ?_⟩
  rw [clean_eq, trimChars, ← literals_append_free _ (free_of_blank trailing),
    ← literals_free_append (free_of_blank leading), ← List.append_assoc, ← split,
    acts_collapse.literals_change, cleaned, List.map_map]
  rfl

/-- A piece that begins and ends outside quotes takes its quoted texts with it. -/
theorem literals_cut {selector : Selector} {text : List Char} {found : Selection}
    (first : selector.find? text = some found)
    (apart : outside.after (found.matched text) = .outside) :
    (literals text).Perm (literals (found.matched text) ++ literals found.rest) := by
  obtain ⟨matched, _, split, outside, _⟩ := find?_spec first
  have same : found.matched text = matched := by
    rw [Selection.matched, split, List.drop_left]
    simp
  rw [same] at apart ⊢
  have whole : literals text =
      literals found.before ++ (literals matched ++ literals found.after) := by
    rw [split, literals, literals_append outside, literals_append apart]
    rfl
  have rest : literals found.rest = literals found.before ++ literals found.after :=
    literals_append outside [] (' ' :: found.after)
  rw [whole, rest]
  exact List.perm_append_comm_assoc _ _ _

/-- A selector takes the quoted texts of its pieces out of a query and leaves the others. -/
theorem literals_remove (selector : Selector) (text : List Char)
    (apart : ∀ cut ∈ (selector.remove text).1, outside.after cut = .outside) :
    (literals text).Perm
      ((selector.remove text).1.flatMap literals ++ literals (selector.remove text).2) := by
  fun_induction remove selector text with
  | case1 => exact .refl _
  | case2 text found first shorter ih =>
    obtain ⟨own, others⟩ := List.forall_mem_cons.mp apart
    have later := ih others
    rw [List.flatMap_cons, List.append_assoc]
    exact (literals_cut first own).trans (later.append_left _)
  | case3 text found first =>
    have own := apart _ List.mem_cons_self
    rw [List.flatMap_cons, List.flatMap_nil, List.append_nil]
    exact literals_cut first own

/-- So do several selectors one after the other. -/
theorem literals_removeAll (selectors : List Selector) (text : List Char)
    (apart : ∀ cut ∈ (removeAll selectors text).1, outside.after cut = .outside) :
    (literals text).Perm
      ((removeAll selectors text).1.flatMap literals ++ literals (removeAll selectors text).2) := by
  induction selectors generalizing text with
  | nil => exact .refl _
  | cons selector others ih =>
    obtain ⟨own, later⟩ := List.forall_mem_append.mp apart
    rw [removeAll, List.flatMap_append, List.append_assoc]
    exact (literals_remove selector text own).trans ((ih _ later).append_left _)

/-- Where every piece that the selectors take out ends outside quotes, each quoted text of a
query belongs to one of the pieces or is kept. Those that are kept stand in the query that is
left, in order and with their marks, and such a text has the same characters there if and only
if it is undisturbed. -/
theorem extract_literals (selectors : List Selector) (query : String)
    (apart : ∀ cut ∈ (removeAll selectors query.toList).1, Quoting.outside.after cut = .outside) :
    ∃ kept,
      (literals query.toList).Perm
        ((removeAll selectors query.toList).1.flatMap literals ++ kept) ∧
      List.Forall₂ (fun literal left => left.mark = literal.mark ∧
          (left.body = literal.body ↔ Undisturbed literal.body))
        kept (literals (extract selectors query).2.toList) := by
  obtain ⟨rounds, cleaned⟩ := literals_clean (removeAll selectors query.toList).2
  refine ⟨literals (removeAll selectors query.toList).2, literals_removeAll _ _ apart, ?_⟩
  rw [extract_snd, String.toList_ofList, cleaned, List.forall₂_map_right_iff]
  exact List.forall₂_same.mpr fun literal _ => ⟨rfl, collapse_tidy_eq_iff rounds⟩

/-- A query with a selector whose value is quoted, a quoted text that is kept as it is, and one
that is not. -/
theorem extract_literals_mixed :
    let selectors := [equality "index" (.anyCase "index") wordValue]
    let query := "index=\"a b\" user='c and d' name=\"e  f\""
    (∀ cut ∈ (removeAll selectors query.toList).1, Quoting.outside.after cut = .outside) ∧
    (removeAll selectors query.toList).1 = ["index=\"a b\"".toList] ∧
    literals (extract selectors query).2.toList =
      [⟨'\'', "c and d".toList⟩, ⟨'"', "e f".toList⟩] ∧
    ∃ kept,
      (literals query.toList).Perm
        ((removeAll selectors query.toList).1.flatMap literals ++ kept) ∧
      List.Forall₂ (fun literal left => left.mark = literal.mark ∧
          (left.body = literal.body ↔ Undisturbed literal.body))
        kept (literals (extract selectors query).2.toList) :=
  ⟨by decide +kernel, by decide +kernel, by decide +kernel,
    extract_literals _ _ (by decide +kernel)⟩

/-- The second of two blanks in a quoted text is lost, although no selector is in the query. -/
theorem extract_merges_quoted_blanks :
    let selectors := [equality "index" (.anyCase "index") wordValue]
    (removeAll selectors "user=\"a  b\"".toList).1 = [] ∧
    literals "user=\"a  b\"".toList = [⟨'"', "a  b".toList⟩] ∧
    literals (extract selectors "user=\"a  b\"").2.toList = [⟨'"', "a b".toList⟩] := by
  decide +kernel

end Detection.Selector

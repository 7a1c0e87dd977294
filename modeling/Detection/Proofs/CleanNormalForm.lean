import Detection.Proofs.Cleaning

/-!
# Cleaning to the end

A round of cleaning that changes a text makes it shorter, so the rounds come to an end, and then
there is nothing to clean. What is left is to write one blank for every run of white space and to
trim the ends. That brings nothing back: where the result has something to clean, the text before it
has the same with wider gaps.
-/
namespace Detection.Selector

open Text Pattern

variable {text early late taken rest wide front back : List Char} {pattern : Pattern} {spot : Spot}

/-! ## Rounds -/

/-- A round that does not make a text shorter has found nothing in it. -/
theorem cleanOnce_cases (text : List Char) :
    cleanOnce text = text ∧ (∀ pattern ∈ steps, pattern.findAll text = []) ∨
      (cleanOnce text).length < text.length := by
  have first := acts_tidy.length_le text
  have dropped (pattern : Pattern) (inner : List Char) :
      (pattern.replaceAll (fun _ _ => []) inner).length ≤ inner.length ∧
        ((pattern.replaceAll (fun _ _ => []) inner).length = inner.length →
          pattern.findAll inner = [] ∧ pattern.replaceAll (fun _ _ => []) inner = inner) := by
    refine ⟨length_replaceAll_le fun _ _ _ => Nat.zero_le _,
      replaceAll_eq_self_of_length fun found groups piece => ?_⟩
    obtain ⟨early, rest, later, hit, rfl, _, _⟩ := exists_hit_of_mem_pieces piece
    simpa using (mem_ends_of_hitAt hit).2
  obtain ⟨second, leadKept⟩ := dropped danglingLead (tidy text)
  obtain ⟨third, trailKept⟩ := dropped danglingTrail (dropLead (tidy text))
  rw [← dropLead] at second leadKept
  rw [← dropTrail, ← cleanOnce_eq] at third trailKept
  by_cases same : (cleanOnce text).length = text.length
  · obtain ⟨tidied, parens, inside, doubled⟩ := tidy_of_length (by omega : (tidy text).length = _)
    rw [tidied] at leadKept trailKept second third
    obtain ⟨lead, kept⟩ := leadKept (by omega)
    rw [kept] at trailKept
    obtain ⟨trail, kept⟩ := trailKept same
    exact .inl ⟨kept, by simp [steps, parens, inside, doubled, lead, trail]⟩
  · exact .inr (by omega)

/-- The rounds end with a text in which there is nothing to find. -/
theorem exists_rounds (text : List Char) :
    ∃ rounds, cleanAll text = cleanOnce^[rounds] text ∧
      cleanOnce (cleanAll text) = cleanAll text ∧
      ∀ pattern ∈ steps, pattern.findAll (cleanAll text) = [] := by
  fun_induction cleanAll text with
  | case1 text shorter ih =>
    obtain ⟨rounds, reached, rest⟩ := ih
    exact ⟨rounds + 1, reached, rest⟩
  | case2 text longer =>
    obtain ⟨same, unfound⟩ := (cleanOnce_cases text).resolve_right longer
    rw [same]
    exact ⟨0, rfl, same, unfound⟩

/-! ## What the steps find -/

/-- A place where a match begins shows in the pieces. -/
theorem hitAt_of_pieces {before : Option Char}
    (unhit : ∀ found groups, .hit found groups ∉ pattern.pieces before (early ++ late)) :
    pattern.hitAt? (early.getLast?.or before) late = none := by
  induction early generalizing before with
  | nil =>
    cases hit : pattern.hitAt? before late with
    | none => exact hit
    | some => exact absurd (pieces_hit hit ▸ List.mem_cons_self) (unhit _ _)
  | cons c early ih =>
    cases hit : pattern.hitAt? before (c :: (early ++ late)) with
    | none =>
      rw [getLast_cons_or]
      refine ih fun found groups piece => unhit found groups ?_
      rw [List.cons_append, pieces_plain hit]
      exact List.mem_cons_of_mem _ piece
    | some => exact absurd (pieces_hit hit ▸ List.mem_cons_self) (unhit _ _)

theorem mem_ends_many (body : Pattern) (spot : Spot) : spot ∈ (many body).ends spot := by
  rw [ends]
  cases spot.rest.length <;> simp [repeated]

theorem calm_of_findAll (unfound : ∀ pattern ∈ steps, pattern.findAll text = []) :
    ¬ Cluttered text := by
  -- It is enough that a step matches somewhere in the text.
  have nowhere {pattern : Pattern} {early late : List Char} (split : text = early ++ late)
      (step : pattern ∈ steps) (consumes : pattern.consumes = true) (later : Spot) :
      later ∉ pattern.ends ⟨early.getLast?, late, []⟩ := fun member => by
    obtain ⟨first, hit⟩ := exists_hitAt consumes member
    have unhit : pattern.hitAt? (early.getLast?.or none) late = none :=
      hitAt_of_pieces fun found groups piece => by
        simpa [← split, unfound pattern step] using mem_findAll.mpr ⟨groups, piece⟩
    rw [Option.or_none, hit] at unhit
    cases unhit
  rintro ⟨early, left, middle, right, late, split, clutters⟩
  cases clutters with
  | parens blank =>
    exact nowhere split (by simp [steps] : emptyParens ∈ steps) rfl _
      ((describes_emptyParens _ _).mpr ⟨_, ⟨middle, blank, rfl⟩, by simp [Spot.past], rfl⟩)
  | lead opens blank isWord spaced =>
    rcases opens with empty | ends
    · have whole : text = [] ++ ((early ++ left) ++ (middle ++ (right ++ late))) := by simp [split]
      exact nowhere whole (by simp [steps] : danglingLead ∈ steps) rfl _
        (mem_ends_danglingLead.mpr ⟨rfl, _, middle, right,
          List.forall_mem_append.mpr ⟨empty, blank⟩, isWord, spaced, by simp [Spot.past], rfl⟩)
    · obtain ⟨front, rfl⟩ := List.getLast?_eq_some_iff.mp ends
      rw [List.append_assoc] at split
      exact nowhere split (by simp [steps] : danglingInside ∈ steps) rfl _
        ((describes_danglingInside _ _).mpr
          ⟨_, .inl ⟨left, middle, right, blank, isWord, spaced, rfl⟩, by simp [Spot.past], rfl⟩)
  | trail spaced isWord blank closes =>
    rcases closes with empty | starts
    · exact nowhere split (by simp [steps] : danglingTrail ∈ steps) rfl _
        (mem_ends_danglingTrail.mpr ⟨by simp [Spot.past], left, middle, right ++ late, spaced,
          isWord, List.forall_mem_append.mpr ⟨blank, empty⟩, rfl, rfl⟩)
    · obtain ⟨rest, rfl⟩ := List.head?_eq_some_iff.mp starts
      exact nowhere split (by simp [steps] : danglingInside ∈ steps) rfl _
        ((describes_danglingInside _ _).mpr
          ⟨_, .inr ⟨left, middle, right, spaced, isWord, blank, rfl⟩, by simp [Spot.past], rfl⟩)
  | doubled begins isFirst spaced isSecond ends =>
    obtain ⟨c, letters, rfl⟩ := List.exists_cons_of_ne_nil isFirst.ne_nil
    obtain ⟨lead, d, rfl⟩ := (List.eq_nil_or_concat right).resolve_left isSecond.ne_nil
    refine nowhere split (by simp [steps] : doubledConnective ∈ steps) rfl _
      (mem_ends_doubledConnective.mpr ⟨begins, _, _, isFirst, by simp [Spot.past],
        mem_ends_another.mpr ⟨?_, middle, _, spaced, isSecond, ?_, rfl⟩, mem_ends_many _ _⟩)
    · simpa [Spot.past, Spot.atWordEdge] using ends
    · simp [Spot.past]

/-! ## Gaps -/

/-- A text in which blanks stand one by one, with wider gaps in their place. -/
inductive Widens : List Char → List Char → Prop
  | nil : Widens [] []
  | solid {c : Char} {text wide : List Char} (visible : isSpace c = false)
      (widens : Widens text wide) : Widens (c :: text) (c :: wide)
  | gap {gap text wide : List Char} (spaced : gap ≠ [] ∧ ∀ c ∈ gap, isSpace c = true)
      (apart : ∀ c ∈ text.head?, isSpace c = false) (widens : Widens text wide) :
      Widens (' ' :: text) (gap ++ wide)

theorem isWord_of_space {c : Char} (space : isSpace c = true) : isWord c = false := by
  simp only [isSpace, isGap, Bool.or_eq_true, beq_iff_eq] at space
  rcases space with (((rfl | rfl) | rfl) | rfl) | rfl <;> rfl

namespace Widens

/-- The parts of a text are widened one by one. -/
theorem split (widens : Widens (early ++ late) wide) :
    ∃ front back, wide = front ++ back ∧ Widens early front ∧ Widens late back := by
  induction early generalizing wide with
  | nil => exact ⟨[], wide, rfl, .nil, widens⟩
  | cons c early ih =>
    cases widens with
    | solid visible widens =>
      obtain ⟨front, back, rfl, first, second⟩ := ih widens
      exact ⟨c :: front, back, rfl, .solid visible first, second⟩
    | @gap gap _ _ spaced apart widens =>
      obtain ⟨front, back, rfl, first, second⟩ := ih widens
      refine ⟨gap ++ front, back, by simp, .gap spaced (fun d own => apart d ?_) first, second⟩
      simp_all [List.head?_append]

variable (widens : Widens text wide)
include widens

/-- White space stays white space. -/
theorem blank (blank : ∀ c ∈ text, isSpace c = true) :
    (∀ c ∈ wide, isSpace c = true) ∧ (wide = [] → text = []) := by
  induction widens with
  | nil => simp
  | solid visible _ ih => simp [visible] at blank
  | gap spaced _ _ ih =>
    refine ⟨fun c own => (List.mem_append.mp own).elim (spaced.2 c) ?_, fun empty => ?_⟩
    · exact (ih fun d inside => blank d (List.mem_cons_of_mem _ inside)).1 c
    · exact absurd (List.append_eq_nil_iff.mp empty).1 spaced.1

theorem eq_of_solid (solid : ∀ c ∈ text, isSpace c = false) : wide = text := by
  induction widens with
  | nil => rfl
  | solid visible _ ih => rw [ih fun d inside => solid d (List.mem_cons_of_mem _ inside)]
  | gap _ _ _ _ => exact absurd (solid ' ' List.mem_cons_self) (by decide)

/-- Whether a word is at an end does not change, with white space around the text either. -/
theorem edges (leading : ∀ c ∈ front, isSpace c = true)
    (trailing : ∀ c ∈ back, isSpace c = true) :
    (wide ++ back).head?.any isWord = text.head?.any isWord ∧
      (front ++ wide).getLast?.any isWord = text.getLast?.any isWord := by
  have outside {c : Option Char} (space : ∀ d ∈ c, isSpace d = true) : c.any isWord = false := by
    cases c with
    | none => rfl
    | some d => exact isWord_of_space (space d rfl)
  constructor
  · cases widens with
    | nil => exact outside fun c own => trailing c (List.mem_of_head? own)
    | solid => rfl
    | @gap gap _ _ spaced _ _ =>
      obtain ⟨c, others, rfl⟩ := List.exists_cons_of_ne_nil spaced.1
      exact isWord_of_space (spaced.2 c List.mem_cons_self)
  · rcases List.eq_nil_or_concat text with rfl | ⟨init, c, rfl⟩
    · rw [widens.eq_of_solid (by simp), List.append_nil]
      exact outside fun c own => leading c (List.mem_of_getLast? own)
    · rw [List.concat_eq_append] at widens
      obtain ⟨lead, tail, rfl, _, last⟩ := widens.split
      cases last with
      | solid visible last => simp [last.eq_of_solid (by simp)]
      | @gap gap _ _ spaced _ last =>
        obtain ⟨others, d, rfl⟩ := (List.eq_nil_or_concat gap).resolve_left spaced.1
        have space : isWord d = isWord ' ' := isWord_of_space (spaced.2 d (by simp))
        simpa [last.eq_of_solid (by simp), ← List.append_assoc] using space

theorem single (spaced : text ≠ [] ∧ ∀ c ∈ text, isSpace c = true) :
    text = [' '] := by
  cases widens with
  | nil => exact absurd rfl spaced.1
  | solid visible _ => simp [visible] at spaced
  | @gap _ text _ _ apart _ =>
    cases text with
    | nil => rfl
    | cons c rest => simp [apart c rfl] at spaced

theorem apart (visible : ∀ c ∈ wide.head?, isSpace c = false) :
    ∀ c ∈ text.head?, isSpace c = false := by
  cases widens with
  | nil => exact visible
  | solid visible _ => simpa using visible
  | @gap gap _ _ spaced _ _ =>
    obtain ⟨c, others, rfl⟩ := List.exists_cons_of_ne_nil spaced.1
    simp [visible c rfl] at spaced

end Widens

theorem widens_collapse (text : List Char) : Widens (collapse text) text := by
  suffices every : ∀ before text,
      Widens ((spaces1.pieces before text).flatMap (Piece.edit fun _ _ => [' '])) text from
    every none text
  intro before text
  induction before, text using pieces_induction spaces1 with
  | nil => simpa [pieces_nil] using .nil
  | plain before c rest unhit ih =>
    rw [pieces_plain unhit]
    refine .solid (Bool.not_eq_true _ ▸ fun space => ?_) ih
    obtain ⟨first, hit⟩ := exists_hitAt rfl ((describes_spaces1 ⟨before, c :: rest, []⟩ _).mpr
      ⟨[c], ⟨by simp, by simpa using space⟩, rfl, rfl⟩)
    simp [hit] at unhit
  | hit before text later hit ih =>
    obtain ⟨gap, spaced, split, _⟩ := (describes_spaces1 _ _).mp (mem_ends_of_hitAt hit).1
    obtain ⟨c, others, rfl⟩ := List.exists_cons_of_ne_nil spaced.1
    obtain rfl : text = c :: others ++ later.rest := split
    -- A run is taken to its end, so that no blank follows.
    have ended : later.rest = (others ++ later.rest).dropWhile isSpace := by
      have first : (one isSpace).ends ⟨before, c :: (others ++ later.rest), []⟩ =
          [⟨some c, others ++ later.rest, []⟩] := by
        simp [ends, spaced.2 c List.mem_cons_self]
      have matched : spaces1.matchAt? _ = some later := (Option.filter_eq_some_iff.mp hit).1
      rw [matchAt?, spaces1, many1, ends, List.cons_append, first, List.flatMap_singleton,
        head_ends_many, Option.some.injEq] at matched
      exact (congrArg Spot.rest matched).symm.trans
        (Spot.past_rest List.takeWhile_append_dropWhile.symm)
    rw [pieces_hit hit]
    refine .gap spaced (ih.apart fun d own => ?_) ih
    have stops := List.head?_dropWhile_not isSpace (others ++ later.rest)
    rwa [← ended, Option.mem_def.mp own] at stops

/-- What is to be cleaned in a text is to be cleaned with wider gaps, and with white space around
it. -/
theorem Cluttered.widen (cluttered : Cluttered text) (widens : Widens text wide)
    (leading : ∀ c ∈ front, isSpace c = true) (trailing : ∀ c ∈ back, isSpace c = true) :
    Cluttered (front ++ (wide ++ back)) := by
  have same {word wide : List Char} (isWord : IsConnective word) (widens : Widens word wide) :
      wide = word := widens.eq_of_solid fun c own => (visible_of_connective isWord own).1
  have spread {gap wide : List Char} (spaced : gap ≠ [] ∧ ∀ c ∈ gap, isSpace c = true)
      (widens : Widens gap wide) : wide ≠ [] ∧ ∀ c ∈ wide, isSpace c = true :=
    ⟨fun empty => spaced.1 ((widens.blank spaced.2).2 empty), (widens.blank spaced.2).1⟩
  obtain ⟨early, left, middle, right, late, rfl, clutters⟩ := cluttered
  obtain ⟨early', _, rfl, atStart, widens⟩ := widens.split
  obtain ⟨left', _, rfl, onLeft, widens⟩ := widens.split
  obtain ⟨middle', _, rfl, between, widens⟩ := widens.split
  obtain ⟨right', late', rfl, onRight, atEnd⟩ := widens.split
  refine ⟨front ++ early', left', middle', right', late' ++ back, by simp, ?_⟩
  cases clutters with
  | parens blank =>
    rw [onLeft.eq_of_solid (List.forall_mem_singleton.mpr rfl),
      onRight.eq_of_solid (List.forall_mem_singleton.mpr rfl)]
    exact .parens (between.blank blank).1
  | lead opens blank isWord spaced =>
    rw [same isWord between]
    refine .lead ?_ (onLeft.blank blank).1 isWord (spread spaced onRight)
    rcases opens with empty | ends
    · exact .inl (List.forall_mem_append.mpr ⟨leading, (atStart.blank empty).1⟩)
    · obtain ⟨lead, rfl⟩ := List.getLast?_eq_some_iff.mp ends
      obtain ⟨lead', _, rfl, _, opening⟩ := atStart.split
      rw [opening.eq_of_solid (List.forall_mem_singleton.mpr rfl), ← List.append_assoc]
      exact .inr List.getLast?_concat
  | trail spaced isWord blank closes =>
    rw [same isWord between]
    refine .trail (spread spaced onLeft) isWord (onRight.blank blank).1 ?_
    rcases closes with empty | starts
    · exact .inl (List.forall_mem_append.mpr ⟨(atEnd.blank empty).1, trailing⟩)
    · obtain ⟨tail, rfl⟩ := List.head?_eq_some_iff.mp starts
      cases atEnd with
      | solid => exact .inr rfl
  | doubled begins isFirst spaced isSecond ends =>
    rw [same isFirst onLeft, same isSecond onRight]
    refine .doubled ?_ isFirst (spread spaced between) isSecond ?_
    · rwa [(atStart.edges leading trailing).2]
    · rwa [(atEnd.edges leading trailing).1]

/-- In a cleaned text there is nothing to clean, and blanks stand one by one. -/
theorem calm_clean (plain : ∀ c ∈ text, isBlank c = true → isSpace c = true) :
    ¬ Cluttered (clean text) ∧ collapse (clean text) = clean text := by
  obtain ⟨lead, trail, leading, trailing, split⟩ :=
    exists_trimBy isBlank (collapse (cleanAll text))
  have space (c : Char) (own : c ∈ collapse (cleanAll text)) (blank : isBlank c = true) :
      isSpace c = true := by
    rcases mem_collapse own with own | rfl
    · exact plain c own blank
    · rfl
  have widens := widens_collapse (cleanAll text)
  rw [split, List.append_assoc] at widens
  rw [split] at space
  obtain ⟨front, _, whole, first, widens⟩ := widens.split
  obtain ⟨wide, back, rfl, middle, last⟩ := widens.split
  refine ⟨fun cluttered => calm_of_findAll (exists_rounds text).choose_spec.2.2 ?_, ?_⟩
  · rw [whole]
    exact cluttered.widen middle
      (first.blank fun c own => space c (by simp [own]) (leading c own)).1
      (last.blank fun c own => space c (by simp [own]) (trailing c own)).1
  · refine collapse_eq_self_iff.mpr fun gap member => ?_
    obtain ⟨groups, piece⟩ := mem_findAll.mp member
    obtain ⟨early, late, _, _, _, _, inside⟩ := exists_hit_of_mem_pieces piece
    change Widens (clean text) wide at middle
    rw [inside] at middle
    obtain ⟨_, _, _, _, behind⟩ := middle.split
    obtain ⟨_, _, _, here, _⟩ := behind.split
    exact here.single (describes_spaces1.of_mem_pieces piece)

/-- A round of cleaning changes nothing or makes a text shorter, so that after some rounds nothing
changes any more. Where white space is only what the patterns know, a cleaned text stays as it is
when it is cleaned again, and none of the five steps finds anything in it. -/
theorem clean_reaches_normal_form (text : List Char) :
    (cleanOnce text = text ∨ (cleanOnce text).length < text.length) ∧
    (∃ rounds, cleanAll text = cleanOnce^[rounds] text ∧
      cleanOnce (cleanAll text) = cleanAll text) ∧
    ((∀ c ∈ text, isBlank c = true → c ∈ [' ', '\t', '\n', '\r', '\x0c']) →
      clean (clean text) = clean text ∧
      ∀ pattern ∈ [emptyParens, danglingInside, doubledConnective, danglingLead, danglingTrail],
        pattern.findAll (clean text) = []) := by
  refine ⟨(cleanOnce_cases text).imp_left And.left, ?_, fun plain => ?_⟩
  · obtain ⟨rounds, reached, same, _⟩ := exists_rounds text
    exact ⟨rounds, reached, same⟩
  · obtain ⟨calm, single⟩ := calm_clean fun c own blank => by
      have known := plain c own blank
      simp only [List.mem_cons, List.not_mem_nil, or_false] at known
      rcases known with rfl | rfl | rfl | rfl | rfl <;> rfl
    refine ⟨?_, fun pattern => findAll_of_calm calm⟩
    rw [clean_of_calm calm, single]
    obtain ⟨lead, trail, leading, trailing, split⟩ :=
      exists_trimBy isBlank (collapse (cleanAll text))
    rw [clean_eq]
    conv_rhs => rw [trimChars, split]
    exact (trimBy_between _ leading trailing).symm

/-- The theorem at a text in which one round leaves work for the next. -/
theorem clean_reaches_normal_form_nested :
    (∀ c ∈ "( or\t( ) and\x0cOR x )\nand ".toList,
      isBlank c = true → c ∈ [' ', '\t', '\n', '\r', '\x0c']) ∧
    clean (clean "( or\t( ) and\x0cOR x )\nand ".toList) =
      clean "( or\t( ) and\x0cOR x )\nand ".toList :=
  have plain : ∀ c ∈ "( or\t( ) and\x0cOR x )\nand ".toList,
      isBlank c = true → c ∈ [' ', '\t', '\n', '\r', '\x0c'] := all_decide_iff.mp (by decide)
  ⟨plain, ((clean_reaches_normal_form _).2.2 plain).1⟩

end Detection.Selector

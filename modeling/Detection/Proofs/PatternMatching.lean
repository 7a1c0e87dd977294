import Detection.Text.Pattern
import Mathlib.Computability.Language
import Mathlib.Data.List.Forall2
import Mathlib.Logic.Relation

/-!
# Where a pattern matches

Apart from the borders of words and the ends of the text that it asks for, a pattern is a
regular expression. A match leads from a place in a text to a later one over a text of its
language, which is made of characters that the pattern takes.

A character that it never takes is a wall: a match in front of the wall is the same
whatever stands behind it, and cutting a text along the matches of the pattern can be done
on the two sides of the wall separately. That holds of patterns that do not ask for the
end of the text, and of walls that are no word characters, since the border of a word is
the only other thing about its surroundings that a pattern can see.
-/
namespace Detection.Text

variable {others : List Pattern} {step : Spot → List Spot} {first : Pattern}

variable {pattern : Pattern} {text rest found : List Char} {spot later : Spot}
  {before : Option Char} {c mark : Char} {groups : List (String × List Char)}
  {change : List Char → List (String × List Char) → List Char} {accepts : Char → Bool}
  {pieces : List Piece}

/-- What is checked for the characters of a text one by one holds for all of them. -/
theorem all_decide_iff {holds : Char → Prop} [DecidablePred holds] :
    text.all (fun c => decide (holds c)) = true ↔ ∀ c ∈ text, holds c := by
  simp only [List.all_eq_true, decide_eq_true_eq]

/-- The last character of a text, or the one in front of it. -/
theorem getLast_cons_or (c : Char) (rest : List Char) (before : Option Char) :
    (c :: rest).getLast?.or before = rest.getLast?.or (some c) := by
  rw [List.getLast?_cons]
  cases rest.getLast? <;> rfl

namespace Spot

/-- The place behind some characters of the text. -/
def past (spot : Spot) (taken : List Char) : Spot :=
  { spot with
    before := taken.getLast?.or spot.before
    rest := spot.rest.drop taken.length }

@[simp] theorem past_nil (spot : Spot) : spot.past [] = spot := rfl

theorem past_rest {taken : List Char} (split : spot.rest = taken ++ rest) :
    (spot.past taken).rest = rest := by
  simp [past, split]

@[simp] theorem past_past (spot : Spot) (taken more : List Char) :
    (spot.past taken).past more = spot.past (taken ++ more) := by
  simp [past, Option.or_assoc]

/-- A later place in the same text, with the characters between the two. -/
structure Leads (spot : Spot) (taken : List Char) (later : Spot) : Prop where
  rest : spot.rest = taken ++ later.rest
  before : later.before = taken.getLast?.or spot.before

theorem Leads.refl (spot : Spot) : spot.Leads [] spot := ⟨rfl, rfl⟩

theorem Leads.single (text : spot.rest = c :: rest) :
    spot.Leads [c] { spot with before := some c, rest } := ⟨text, rfl⟩

/-- A way can be continued. -/
theorem Leads.trans {first second third : Spot} {taken more : List Char}
    (one : first.Leads taken second) (other : second.Leads more third) :
    first.Leads (taken ++ more) third := by
  refine ⟨by rw [one.rest, other.rest, List.append_assoc], ?_⟩
  rw [other.before, one.before, List.getLast?_append, Option.or_assoc]

/-- What has been kept on the way does not matter. -/
theorem Leads.withGroups {taken : List Char} (leads : spot.Leads taken later)
    (groups : List (String × List Char)) : spot.Leads taken { later with groups } :=
  ⟨leads.rest, leads.before⟩

theorem Leads.taken {taken : List Char} (leads : spot.Leads taken later) :
    spot.taken later = taken := by
  rw [Spot.taken, leads.rest, List.length_append, Nat.add_sub_cancel, List.take_left]

/-- A place with more text behind its rest. -/
def extend (tail : List Char) (spot : Spot) : Spot :=
  { spot with rest := spot.rest ++ tail }

end Spot

/-- Each place after some repetitions is reached step by step. -/
theorem steps_of_repeated {reluctant : Bool} {turns : Nat}
    (member : later ∈ repeated step reluctant turns spot) :
    Relation.ReflTransGen (fun spot later => later ∈ step spot) spot later := by
  induction turns generalizing spot with
  | zero => exact List.mem_singleton.mp member ▸ .refl
  | succ turns ih =>
    have split : later = spot ∨ ∃ next ∈ step spot, later ∈ repeated step reluctant turns next := by
      cases reluctant <;> simpa [repeated, or_comm] using member
    rcases split with rfl | ⟨next, stepped, further⟩
    · exact .refl
    · exact .head stepped (ih further)

/-- Steps that always go on need no more turns than the text has characters. -/
theorem repeated_turns
    (shorter : ∀ spot, ∀ later ∈ step spot, later.rest.length < spot.rest.length)
    (reluctant : Bool) (turns others : Nat) (spot : Spot) (enough : spot.rest.length ≤ turns)
    (also : spot.rest.length ≤ others) :
    repeated step reluctant turns spot = repeated step reluctant others spot := by
  have stuck (spot : Spot) (ended : spot.rest.length ≤ 0) : step spot = [] :=
    List.eq_nil_iff_forall_not_mem.mpr fun later member => by
      have := shorter spot later member
      omega
  induction turns generalizing others spot with
  | zero =>
    cases others with
    | zero => rfl
    | succ => simp [repeated, stuck spot enough]
  | succ turns ih =>
    cases others with
    | zero => simp [repeated, stuck spot also]
    | succ others =>
      have further : (step spot).flatMap (repeated step reluctant turns) =
          (step spot).flatMap (repeated step reluctant others) := by
        refine List.flatMap_congr fun later member => ?_
        have := shorter spot later member
        exact ih others later (by omega) (by omega)
      simp only [repeated, further]

namespace Pattern

/-- Whether a character can be part of a match. -/
def takes (c : Char) : Pattern → Bool
  | nothing | start | stop | wordEdge => false
  | one accepts => accepts c
  | both first second | either first second => first.takes c || second.takes c
  | many body | few body | named _ body => body.takes c

/-- The texts that a pattern describes, whatever stands around them. -/
def language : Pattern → Language Char
  | nothing | start | stop | wordEdge => 1
  | one accepts => {text | ∃ c, accepts c = true ∧ text = [c]}
  | both first second => first.language * second.language
  | either preferred other => preferred.language + other.language
  | many body | few body => KStar.kstar body.language
  | named _ body => body.language

/-- Steps over texts of a language lead over several of these. -/
theorem exists_mem_kstar_of_steps {texts : Language Char}
    (each : ∀ spot, ∀ later ∈ step spot, ∃ taken ∈ texts, spot.Leads taken later)
    (steps : Relation.ReflTransGen (fun spot later => later ∈ step spot) spot later) :
    ∃ taken ∈ KStar.kstar texts, spot.Leads taken later := by
  induction steps with
  | refl => exact ⟨[], Language.nil_mem_kstar texts, .refl spot⟩
  | tail _ last ih =>
    obtain ⟨front, several, leads⟩ := ih
    obtain ⟨back, single, onwards⟩ := each _ _ last
    refine ⟨front ++ back, ?_, leads.trans onwards⟩
    rw [← Language.one_add_kstar_mul_self_eq_kstar]
    exact .inr (Language.append_mem_mul several single)

/-- A match is a text of the language. -/
theorem exists_mem_language_of_mem_ends (pattern : Pattern) (member : later ∈ pattern.ends spot) :
    ∃ taken ∈ pattern.language, spot.Leads taken later := by
  induction pattern generalizing spot later with
  | nothing =>
    rw [ends, List.mem_singleton] at member
    exact ⟨[], rfl, member ▸ .refl spot⟩
  | one accepts =>
    rw [ends] at member
    split at member
    · next c rest text =>
      split at member
      · next accepted =>
        rw [List.mem_singleton] at member
        exact ⟨[c], ⟨c, accepted, rfl⟩, member ▸ .single text⟩
      · contradiction
    · contradiction
  | both first second ihFirst ihSecond =>
    obtain ⟨middle, firstMember, secondMember⟩ := List.mem_flatMap.mp member
    obtain ⟨taken, early, firstLeads⟩ := ihFirst firstMember
    obtain ⟨more, late, secondLeads⟩ := ihSecond secondMember
    exact ⟨taken ++ more, Language.append_mem_mul early late, firstLeads.trans secondLeads⟩
  | either preferred other ihPreferred ihOther =>
    rcases List.mem_append.mp member with early | late
    · obtain ⟨taken, own, leads⟩ := ihPreferred early
      exact ⟨taken, .inl own, leads⟩
    · obtain ⟨taken, own, leads⟩ := ihOther late
      exact ⟨taken, .inr own, leads⟩
  | many body ih | few body ih =>
    exact exists_mem_kstar_of_steps (fun _ _ => ih) (steps_of_repeated member)
  | start | stop | wordEdge =>
    rw [ends] at member
    split at member
    · exact ⟨[], rfl, List.mem_singleton.mp member ▸ .refl spot⟩
    · contradiction
  | named name body ih =>
    obtain ⟨inner, innerMember, rfl⟩ := List.mem_map.mp member
    obtain ⟨taken, own, leads⟩ := ih innerMember
    exact ⟨taken, own, leads.withGroups _⟩

theorem takes_of_mem_language (member : text ∈ pattern.language) :
    ∀ c ∈ text, pattern.takes c = true := by
  induction pattern generalizing text with
  | nothing | start | stop | wordEdge =>
    obtain rfl : text = [] := member
    simp
  | one =>
    obtain ⟨c, accepted, rfl⟩ := member
    simpa [takes] using accepted
  | both first second ihFirst ihSecond =>
    obtain ⟨early, inFirst, late, inSecond, rfl⟩ := member
    intro c inside
    rcases List.mem_append.mp inside with front | back
    · simp [takes, ihFirst inFirst c front]
    · simp [takes, ihSecond inSecond c back]
  | either preferred other ihPreferred ihOther =>
    intro c inside
    rcases member with own | own
    · simp [takes, ihPreferred own c inside]
    · simp [takes, ihOther own c inside]
  | many body ih | few body ih =>
    obtain ⟨parts, rfl, each⟩ := member
    intro c inside
    obtain ⟨part, listed, own⟩ := List.mem_flatten.mp inside
    exact ih (each part listed) c own
  | named name body ih => exact ih member

/-- A match leads to a later place, over characters that the pattern takes. -/
theorem leads_of_mem_ends (pattern : Pattern) (member : later ∈ pattern.ends spot) :
    ∃ taken, spot.Leads taken later ∧ ∀ c ∈ taken, pattern.takes c = true := by
  obtain ⟨taken, own, leads⟩ := pattern.exists_mem_language_of_mem_ends member
  exact ⟨taken, leads, takes_of_mem_language own⟩

theorem length_le_of_mem_ends (pattern : Pattern) (member : later ∈ pattern.ends spot) :
    later.rest.length ≤ spot.rest.length := by
  obtain ⟨taken, leads, _⟩ := pattern.leads_of_mem_ends member
  rw [leads.rest, List.length_append]
  omega

/-- Whether a match of the pattern surely takes a character. -/
def consumes : Pattern → Bool
  | one _ => true
  | both first second => first.consumes || second.consumes
  | either preferred other => preferred.consumes && other.consumes
  | named _ body => body.consumes
  | nothing | many _ | few _ | start | stop | wordEdge => false

/-- A match of such a pattern leaves a shorter text. -/
theorem length_lt_of_consumes (consumes : pattern.consumes = true)
    (member : later ∈ pattern.ends spot) : later.rest.length < spot.rest.length := by
  induction pattern generalizing spot later with
  | one =>
    rw [ends] at member
    split at member
    · next c rest text =>
      split at member
      · rw [List.mem_singleton.mp member, text]
        simp
      · simp at member
    · simp at member
  | both first second ihFirst ihSecond =>
    obtain ⟨middle, firstMember, secondMember⟩ := List.mem_flatMap.mp member
    have firstLength := first.length_le_of_mem_ends firstMember
    have secondLength := second.length_le_of_mem_ends secondMember
    rcases Bool.or_eq_true _ _ |>.mp consumes with early | late
    · have := ihFirst early firstMember
      omega
    · have := ihSecond late secondMember
      omega
  | either preferred other ihPreferred ihOther =>
    obtain ⟨early, late⟩ := Bool.and_eq_true _ _ |>.mp consumes
    exact (List.mem_append.mp member).elim (ihPreferred early) (ihOther late)
  | named name body ih =>
    obtain ⟨inner, innerMember, rfl⟩ := List.mem_map.mp member
    have shorter : inner.rest.length < spot.rest.length :=
      ih consumes innerMember
    exact shorter
  | nothing | many | few | start | stop | wordEdge => simp [Pattern.consumes] at consumes

/-- Whether a pattern never gets past a character and asks for nothing behind it. -/
def stopsAt (mark : Char) : Pattern → Bool
  | nothing | start | wordEdge => true
  | stop => false
  | one accepts => !accepts mark
  | both first second | either first second => first.stopsAt mark && second.stopsAt mark
  | many body | few body => body.consumes && body.stopsAt mark
  | named _ body => body.stopsAt mark

/-- Repetitions in front of a wall do not see what is behind it. -/
theorem repeated_extend {body : Pattern} (consumes : body.consumes = true) {tail : List Char}
    (blind : ∀ spot, body.ends (spot.extend tail) = (body.ends spot).map (Spot.extend tail))
    (reluctant : Bool) (spot : Spot) :
    repeated body.ends reluctant (spot.extend tail).rest.length (spot.extend tail) =
      (repeated body.ends reluctant spot.rest.length spot).map (Spot.extend tail) := by
  have same (turns : Nat) (spot : Spot) :
      repeated body.ends reluctant turns (spot.extend tail) =
        (repeated body.ends reluctant turns spot).map (Spot.extend tail) := by
    induction turns generalizing spot with
    | zero => rfl
    | succ turns ih =>
      have further : (body.ends (spot.extend tail)).flatMap (repeated body.ends reluctant turns) =
          ((body.ends spot).flatMap (repeated body.ends reluctant turns)).map
            (Spot.extend tail) := by
        rw [blind, List.flatMap_map, List.map_flatMap]
        exact List.flatMap_congr fun later _ => ih later
      cases reluctant <;> simp [repeated, further]
  have longer : spot.rest.length ≤ (spot.extend tail).rest.length := by simp [Spot.extend]
  rw [same, repeated_turns (fun _ _ => body.length_lt_of_consumes consumes) reluctant _ _ spot
    longer (Nat.le_refl _)]

/-- A match in front of a wall does not see what is behind it. -/
theorem ends_extend (stops : pattern.stopsAt mark = true) (outside : isWord mark = false)
    (tail : List Char) (spot : Spot) :
    pattern.ends (spot.extend (mark :: tail)) =
      (pattern.ends spot).map (Spot.extend (mark :: tail)) := by
  induction pattern generalizing spot with
  | nothing => rfl
  | one accepts =>
    have refused : accepts mark = false := by simpa [stopsAt] using stops
    obtain ⟨before, rest, groups⟩ := spot
    cases rest with
    | nil => simp [ends, Spot.extend, refused]
    | cons c rest => by_cases accepted : accepts c = true <;> simp [ends, Spot.extend, accepted]
  | both first second ihFirst ihSecond =>
    obtain ⟨early, late⟩ := Bool.and_eq_true _ _ |>.mp stops
    rw [ends, ihFirst early, List.flatMap_map, ends, List.map_flatMap]
    exact List.flatMap_congr fun later _ => ihSecond late later
  | either preferred other ihPreferred ihOther =>
    obtain ⟨early, late⟩ := Bool.and_eq_true _ _ |>.mp stops
    rw [ends, ihPreferred early, ihOther late, ends, List.map_append]
  | many body ih =>
    obtain ⟨consumes, inner⟩ := Bool.and_eq_true _ _ |>.mp stops
    exact repeated_extend consumes (ih inner) false spot
  | few body ih =>
    obtain ⟨consumes, inner⟩ := Bool.and_eq_true _ _ |>.mp stops
    exact repeated_extend consumes (ih inner) true spot
  | start => by_cases first : spot.before.isNone = true <;> simp [ends, Spot.extend, first]
  | stop => simp [stopsAt] at stops
  | wordEdge =>
    have same : (spot.extend (mark :: tail)).atWordEdge = spot.atWordEdge := by
      obtain ⟨before, rest, groups⟩ := spot
      cases rest <;> simp [Spot.atWordEdge, Spot.extend, outside]
    rw [ends, ends, same]
    split <;> rfl
  | named name body ih =>
    rw [ends, ih stops, List.map_map, ends, List.map_map]
    refine List.map_congr_left fun later member => ?_
    obtain ⟨taken, leads, _⟩ := body.leads_of_mem_ends member
    have extended : (spot.extend (mark :: tail)).Leads taken (later.extend (mark :: tail)) :=
      ⟨by simp [Spot.extend, leads.rest], leads.before⟩
    simp only [Function.comp_apply, extended.taken, leads.taken]
    rfl

/-- The place where a match begins that takes a character, and where it ends. -/
def hitAt? (pattern : Pattern) (before : Option Char) (text : List Char) : Option Spot :=
  (pattern.matchAt? ⟨before, text, []⟩).filter fun later => later.rest.length < text.length

/-- A hit is one of the ways in which the pattern matches. -/
theorem mem_ends_of_hitAt (hit : pattern.hitAt? before text = some later) :
    later ∈ pattern.ends ⟨before, text, []⟩ ∧ later.rest.length < text.length := by
  obtain ⟨matched, shorter⟩ := Option.filter_eq_some_iff.mp hit
  exact ⟨List.mem_of_head? matched, by simpa using shorter⟩

/-- Where a pattern matches that takes a character it has a hit. -/
theorem exists_hitAt (consumes : pattern.consumes = true)
    (member : later ∈ pattern.ends ⟨before, text, []⟩) :
    ∃ first, pattern.hitAt? before text = some first := by
  obtain ⟨first, matched⟩ : ∃ first, (pattern.ends ⟨before, text, []⟩).head? = some first :=
    ⟨_, List.head?_eq_some_head (List.ne_nil_of_mem member)⟩
  refine ⟨first, Option.filter_eq_some_iff.mpr ⟨matched, ?_⟩⟩
  have shorter := length_lt_of_consumes consumes (List.mem_of_head? matched)
  simpa using shorter

theorem hitAt_eq_none (none : pattern.ends ⟨before, text, []⟩ = []) :
    pattern.hitAt? before text = .none := by
  simp [hitAt?, matchAt?, none]

theorem pieces_nil (pattern : Pattern) (before : Option Char) : pattern.pieces before [] = [] := by
  rw [pieces]

/-- A character at which no hit begins stands outside all matches. -/
theorem pieces_plain (none : pattern.hitAt? before (c :: rest) = none) :
    pattern.pieces before (c :: rest) = .plain c :: pattern.pieces (some c) rest := by
  rw [pieces]
  cases matched : pattern.matchAt? ⟨before, c :: rest, []⟩ with
  | none => rfl
  | some later =>
    have longer : ¬ later.rest.length < (c :: rest).length := by
      simpa [hitAt?, matched, Option.filter] using none
    simp only [longer, ↓reduceIte]

/-- A hit is a piece, and the cutting goes on behind it. -/
theorem pieces_hit (hit : pattern.hitAt? before text = some later) :
    pattern.pieces before text =
      .hit (Spot.taken ⟨before, text, []⟩ later) later.groups ::
        pattern.pieces later.before later.rest := by
  obtain ⟨matched, shorter⟩ := Option.filter_eq_some_iff.mp hit
  cases text with
  | nil => simp at shorter
  | cons =>
    rw [pieces]
    simp only [matched]
    exact if_pos (by simpa using shorter)

/-- Induction along the pieces that a pattern cuts a text into. -/
@[elab_as_elim]
theorem pieces_induction (pattern : Pattern) {motive : Option Char → List Char → Prop}
    (nil : ∀ before, motive before [])
    (plain : ∀ before c rest, pattern.hitAt? before (c :: rest) = none → motive (some c) rest →
      motive before (c :: rest))
    (hit : ∀ before text later, pattern.hitAt? before text = some later →
      motive later.before later.rest → motive before text)
    (before : Option Char) (text : List Char) : motive before text := by
  induction length : text.length using Nat.strongRecOn generalizing before text with
  | _ size ih =>
    subst length
    cases text with
    | nil => exact nil before
    | cons c rest =>
      cases found : pattern.hitAt? before (c :: rest) with
      | none => exact plain before c rest found (ih _ (by simp) _ _ rfl)
      | some later =>
        exact hit before _ later found
          (ih _ (mem_ends_of_hitAt found).2 _ _ rfl)

/-- The pieces put together are the text. -/
theorem join_pieces (pattern : Pattern) (before : Option Char) (text : List Char) :
    (pattern.pieces before text).flatMap (Piece.edit fun text _ => text) = text := by
  induction before, text using pieces_induction pattern with
  | nil => simp [pieces_nil]
  | plain before c rest none ih =>
    simp [pieces_plain none, Piece.edit, ih]
  | hit before text later found ih =>
    obtain ⟨taken, leads, _⟩ := pattern.leads_of_mem_ends (mem_ends_of_hitAt found).1
    have text : text = taken ++ later.rest := leads.rest
    rw [pieces_hit found, leads.taken, List.flatMap_cons, ih]
    exact text.symm

/-- A text is cut on the two sides of a wall separately. -/
theorem pieces_wall (stops : pattern.stopsAt mark = true) (outside : isWord mark = false)
    (before : Option Char) (text tail : List Char) :
    pattern.pieces before (text ++ mark :: tail) =
      pattern.pieces before text ++ .plain mark :: pattern.pieces (some mark) tail := by
  have hits (before : Option Char) (text : List Char) :
      pattern.hitAt? before (text ++ mark :: tail) =
        (pattern.hitAt? before text).map (Spot.extend (mark :: tail)) := by
    have extended := ends_extend stops outside tail ⟨before, text, []⟩
    rw [Spot.extend] at extended
    rw [hitAt?, matchAt?, extended, List.head?_map, hitAt?, matchAt?]
    cases (pattern.ends ⟨before, text, []⟩).head? with
    | none => rfl
    | some later =>
      by_cases shorter : later.rest.length < text.length <;>
        simp [Option.filter, Spot.extend, shorter]
  induction before, text using pieces_induction pattern with
  | nil before =>
    have none : pattern.hitAt? before (mark :: tail) = none := by
      have empty : pattern.hitAt? before [] = none := by
        cases found : pattern.hitAt? before [] with
        | none => rfl
        | some => simpa using (mem_ends_of_hitAt found).2
      simpa [empty] using hits before []
    simp [pieces_nil, pieces_plain none]
  | plain before c rest none ih =>
    have still : pattern.hitAt? before (c :: (rest ++ mark :: tail)) = .none := by
      simpa [none] using hits before (c :: rest)
    rw [List.cons_append, pieces_plain still, pieces_plain none, ih,
      List.cons_append]
  | hit before text later found ih =>
    have still : pattern.hitAt? before (text ++ mark :: tail) =
        some (later.extend (mark :: tail)) := by simp [hits, found]
    obtain ⟨taken, leads, _⟩ := pattern.leads_of_mem_ends (mem_ends_of_hitAt found).1
    obtain ⟨more, extended, _⟩ := pattern.leads_of_mem_ends (mem_ends_of_hitAt still).1
    have same : more = taken := by
      have whole : text ++ mark :: tail = more ++ (later.rest ++ mark :: tail) := extended.rest
      have text : text = taken ++ later.rest := leads.rest
      rw [text, List.append_assoc] at whole
      exact (List.append_cancel_right whole).symm
    rw [pieces_hit still, pieces_hit found, extended.taken, leads.taken, same, List.cons_append]
    exact congrArg _ ih

/-- A stretch of text in which no hit begins is not cut. -/
theorem pieces_inert {tail : List Char} (none : ∀ early c late, text = early ++ c :: late →
      pattern.hitAt? (early.getLast?.or before) (c :: (late ++ tail)) = none) :
    pattern.pieces before (text ++ tail) =
      text.map .plain ++ pattern.pieces (text.getLast?.or before) tail := by
  induction text generalizing before with
  | nil => rfl
  | cons c rest ih =>
    have first : pattern.hitAt? before (c :: (rest ++ tail)) = .none := none [] c rest rfl
    have others := @ih (some c) fun early d late split => by
      have inside := none (c :: early) d late (by rw [split, List.cons_append])
      rwa [getLast_cons_or] at inside
    rw [List.cons_append, pieces_plain first, others, List.map_cons, List.cons_append,
      getLast_cons_or]

/-- The text in front of the first hit among some pieces, and what the hit keeps. -/
def firstHit? : List Piece → Option (List Char × List (String × List Char))
  | [] => none
  | .plain c :: others => (firstHit? others).map fun (before, groups) => (c :: before, groups)
  | .hit _ groups :: _ => some ([], groups)

theorem firstMatch_eq (pattern : Pattern) (text : List Char) :
    pattern.firstMatch? text = firstHit? (pattern.pieces none text) := by
  rw [firstMatch?]
  induction pattern.pieces none text with
  | nil => rfl
  | cons piece others ih =>
    cases piece with
    | plain c =>
      rw [firstHit?, ← ih]
      simp only [List.takeWhile_cons, ↓reduceIte, List.length_cons, List.drop_succ_cons]
      split <;> rfl
    | hit => rfl

/-- Either there is no hit in a text, or the first one stands behind some text. -/
theorem firstMatch_cases (pattern : Pattern) (text : List Char) :
    (pattern.firstMatch? text = none ∧
      ∀ early late, text = early ++ late → pattern.hitAt? early.getLast? late = none) ∨
    ∃ early late later, text = early ++ late ∧
      pattern.hitAt? early.getLast? late = some later ∧
      pattern.firstMatch? text = some (early, later.groups) := by
  suffices ∀ before,
      (firstHit? (pattern.pieces before text) = none ∧ ∀ early late, text = early ++ late →
        pattern.hitAt? (early.getLast?.or before) late = none) ∨
      ∃ early late later, text = early ++ late ∧
        pattern.hitAt? (early.getLast?.or before) late = some later ∧
        firstHit? (pattern.pieces before text) = some (early, later.groups) by
    simpa [firstMatch_eq] using this none
  intro before
  induction before, text using pieces_induction pattern with
  | nil before =>
    refine .inl ⟨by rw [pieces_nil]; rfl, fun early late split => ?_⟩
    obtain ⟨rfl, rfl⟩ := List.append_eq_nil_iff.mp split.symm
    cases found : pattern.hitAt? (([] : List Char).getLast?.or before) [] with
    | none => rfl
    | some => simpa using (mem_ends_of_hitAt found).2
  | plain before c rest none ih =>
    rw [pieces_plain none, firstHit?]
    rcases ih with ⟨noHit, others⟩ | ⟨early, late, later, rfl, hit, first⟩
    · refine .inl ⟨by rw [noHit]; rfl, fun early late split => ?_⟩
      cases early with
      | nil =>
        rw [List.nil_append] at split
        exact split ▸ none
      | cons d early =>
        obtain ⟨rfl, rest⟩ := List.cons.inj split
        rw [getLast_cons_or]
        exact others early late rest
    · refine .inr ⟨c :: early, late, later, rfl, ?_, by rw [first]; rfl⟩
      rwa [getLast_cons_or]
  | hit before text later found ih =>
    exact .inr ⟨[], text, later, rfl, found, by rw [pieces_hit found]; rfl⟩

/-- Whether a pattern does not ask for the beginning of the text. -/
def unanchored : Pattern → Bool
  | start => false
  | nothing | one _ | stop | wordEdge => true
  | both first second | either first second => first.unanchored && second.unanchored
  | many body | few body | named _ body => body.unanchored

/-- Two places that a pattern which does not ask for the beginning cannot tell apart. -/
structure Alike (spot other : Spot) : Prop where
  rest : spot.rest = other.rest
  groups : spot.groups = other.groups
  edge : spot.before.any isWord = other.before.any isWord

/-- Repetitions from places that are alike lead to places that are alike. -/
theorem repeated_alike
    (each : ∀ {spot other}, Alike spot other → List.Forall₂ Alike (step spot) (step other))
    (reluctant : Bool) (turns : Nat) {other : Spot} (alike : Alike spot other) :
    List.Forall₂ Alike (repeated step reluctant turns spot)
      (repeated step reluctant turns other) := by
  induction turns generalizing spot other with
  | zero => exact .cons alike .nil
  | succ turns ih =>
    have further : List.Forall₂ Alike ((step spot).flatMap (repeated step reluctant turns))
        ((step other).flatMap (repeated step reluctant turns)) :=
      List.rel_flatMap (each alike) fun _ _ => ih
    cases reluctant with
    | true => exact .cons alike further
    | false => exact List.rel_append further (.cons alike .nil)

/-- A pattern matches alike at places that are alike. -/
theorem ends_alike (unanchored : pattern.unanchored = true) {other : Spot}
    (alike : Alike spot other) : List.Forall₂ Alike (pattern.ends spot) (pattern.ends other) := by
  induction pattern generalizing spot other with
  | nothing => exact .cons alike .nil
  | one accepts =>
    rw [ends, ends, ← alike.rest]
    cases spot.rest with
    | nil => exact .nil
    | cons c rest =>
      by_cases accepted : accepts c = true
      · simp only [accepted, ↓reduceIte]
        exact .cons ⟨rfl, alike.groups, rfl⟩ .nil
      · simp [accepted]
  | both first second ihFirst ihSecond =>
    obtain ⟨early, late⟩ := Bool.and_eq_true _ _ |>.mp unanchored
    exact List.rel_flatMap (ihFirst early alike) fun _ _ => ihSecond late
  | either preferred second ihPreferred ihSecond =>
    obtain ⟨early, late⟩ := Bool.and_eq_true _ _ |>.mp unanchored
    exact List.rel_append (ihPreferred early alike) (ihSecond late alike)
  | many body ih =>
    rw [ends, ends, ← alike.rest]
    exact repeated_alike (ih unanchored) false _ alike
  | few body ih =>
    rw [ends, ends, ← alike.rest]
    exact repeated_alike (ih unanchored) true _ alike
  | start => simp [Pattern.unanchored] at unanchored
  | stop =>
    rw [ends, ends, ← alike.rest]
    split
    · exact .cons alike .nil
    · exact .nil
  | wordEdge =>
    have same : spot.atWordEdge = other.atWordEdge := by
      rw [Spot.atWordEdge, Spot.atWordEdge, alike.edge, alike.rest]
    rw [ends, ends, ← same]
    split
    · exact .cons alike .nil
    · exact .nil
  | named name body ih =>
    rw [ends, ends, List.forall₂_map_left_iff, List.forall₂_map_right_iff]
    refine (ih unanchored alike).imp fun later after same =>
      ⟨same.rest, ?_, same.edge⟩
    simp only [Spot.taken, same.rest, alike.rest, same.groups]

/-- Of what stands in front of a text such a pattern sees only whether it ends a word. -/
theorem pieces_before (unanchored : pattern.unanchored = true) {other : Option Char}
    (edge : before.any isWord = other.any isWord) (text : List Char) :
    pattern.pieces before text = pattern.pieces other text := by
  have hits {before other : Option Char} (edge : before.any isWord = other.any isWord)
      {text : List Char} {later : Spot} (found : pattern.hitAt? before text = some later) :
      ∃ after, pattern.hitAt? other text = some after ∧ Alike later after := by
    have alike : List.Forall₂ Alike (pattern.ends ⟨before, text, []⟩)
        (pattern.ends ⟨other, text, []⟩) := ends_alike unanchored ⟨rfl, rfl, edge⟩
    obtain ⟨matched, shorter⟩ := Option.filter_eq_some_iff.mp found
    obtain ⟨others, written⟩ := List.head?_eq_some_iff.mp matched
    rw [written, List.forall₂_cons_left_iff] at alike
    obtain ⟨after, behind, first, _, same⟩ := alike
    refine ⟨after, Option.filter_eq_some_iff.mpr ⟨?_, first.rest ▸ shorter⟩, first⟩
    rw [matchAt?, same, List.head?_cons]
  induction before, text using pieces_induction pattern generalizing other with
  | nil => rw [pieces_nil, pieces_nil]
  | plain before c rest none ih =>
    have still : pattern.hitAt? other (c :: rest) = .none := by
      refine Option.eq_none_iff_forall_ne_some.mpr fun after found => ?_
      obtain ⟨later, also, _⟩ := hits edge.symm found
      rw [none] at also
      contradiction
    rw [pieces_plain none, pieces_plain still]
  | hit before text later found ih =>
    obtain ⟨after, also, alike⟩ := hits edge found
    rw [pieces_hit found, pieces_hit also, ih alike.edge, alike.groups,
      alike.rest, Spot.taken, Spot.taken, alike.rest]

/-- Replacing the matches of a pattern is done on the two sides of a wall separately. -/
theorem replaceAll_wall (stops : pattern.stopsAt mark = true)
    (unanchored : pattern.unanchored = true) (outside : isWord mark = false)
    (text tail : List Char) :
    pattern.replaceAll change (text ++ mark :: tail) =
      pattern.replaceAll change text ++ mark :: pattern.replaceAll change tail := by
  have same : pattern.pieces (some mark) tail = pattern.pieces none tail :=
    pieces_before unanchored (by simp [outside]) tail
  simp [replaceAll, pieces_wall stops outside, same, Piece.edit]

/-- A piece that is a hit was found somewhere in the text. -/
theorem exists_hit_of_mem_pieces (member : .hit found groups ∈ pattern.pieces before text) :
    ∃ early rest later, pattern.hitAt? (early.getLast?.or before) (found ++ rest) = some later ∧
      later.rest = rest ∧ later.groups = groups ∧ text = early ++ (found ++ rest) := by
  induction before, text using pieces_induction pattern with
  | nil => simp [pieces_nil] at member
  | plain before c rest none ih =>
    rw [pieces_plain none, List.mem_cons] at member
    obtain ⟨early, behind, later, hit, own, kept, rfl⟩ := ih (member.resolve_left (by simp))
    exact ⟨c :: early, behind, later, by rwa [getLast_cons_or], own, kept, rfl⟩
  | hit before text later hit ih =>
    rw [pieces_hit hit, List.mem_cons] at member
    obtain ⟨taken, leads, _⟩ := pattern.leads_of_mem_ends (mem_ends_of_hitAt hit).1
    have whole : text = taken ++ later.rest := leads.rest
    rcases member with same | other
    · rw [leads.taken] at same
      obtain ⟨rfl, rfl⟩ := Piece.hit.inj same
      exact ⟨[], later.rest, later, whole ▸ hit, rfl, rfl, whole⟩
    · obtain ⟨early, behind, last, found, own, kept, rest⟩ := ih other
      rw [leads.before, ← Option.or_assoc, ← List.getLast?_append] at found
      exact ⟨taken ++ early, behind, last, found, own, kept, by simp [whole, rest]⟩

theorem mem_findAll :
    found ∈ pattern.findAll text ↔ ∃ groups, .hit found groups ∈ pattern.pieces none text := by
  rw [findAll, List.mem_filterMap]
  constructor
  · rintro ⟨piece, member, kept⟩
    cases piece with
    | plain c => contradiction
    | hit text groups =>
      cases kept
      exact ⟨groups, member⟩
  · rintro ⟨groups, member⟩
    exact ⟨_, member, rfl⟩

/-- Where nothing is found, nothing is replaced. -/
theorem replaceAll_of_findAll (none : pattern.findAll text = []) :
    pattern.replaceAll change text = text := by
  conv_rhs => rw [← join_pieces pattern .none text]
  refine List.flatMap_congr fun piece member => ?_
  cases piece with
  | plain c => rfl
  | hit found groups => exact absurd (mem_findAll.mpr ⟨groups, member⟩) (by simp [none])

theorem mem_of_mem_pieces (member : .hit found groups ∈ pattern.pieces before text)
    (inside : c ∈ found) : c ∈ text := by
  obtain ⟨early, rest, later, _, _, _, rfl⟩ := exists_hit_of_mem_pieces member
  simp [inside]

/-- Where no match becomes empty, no text does. -/
theorem replaceAll_eq_nil_iff
    (some : ∀ found groups, .hit found groups ∈ pattern.pieces none text →
      change found groups ≠ []) : pattern.replaceAll change text = [] ↔ text = [] := by
  constructor
  · intro empty
    rw [replaceAll, List.flatMap_eq_nil_iff] at empty
    have none : pattern.pieces none text = [] := by
      rw [List.eq_nil_iff_forall_not_mem]
      intro piece member
      cases piece with
      | plain c => exact List.cons_ne_nil c [] (empty _ member)
      | hit found groups => exact some found groups member (empty _ member)
    rw [← join_pieces pattern .none text, none, List.flatMap_nil]
  · rintro rfl
    rw [replaceAll, pieces_nil, List.flatMap_nil]

/-- The characters of a text with changed matches are those of the text and of the changes. -/
theorem forall_mem_replaceAll {holds : Char → Prop} (every : ∀ c ∈ text, holds c)
    (changed : ∀ found groups, .hit found groups ∈ pattern.pieces none text →
      ∀ c ∈ change found groups, holds c) : ∀ c ∈ pattern.replaceAll change text, holds c := by
  intro c member
  obtain ⟨piece, listed, own⟩ := List.mem_flatMap.mp member
  cases piece with
  | plain d =>
    apply every
    rw [← join_pieces pattern none text]
    exact List.mem_flatMap.mpr ⟨_, listed, own⟩
  | hit found groups => exact changed found groups listed c own

section Anchored

variable (anchored : ∀ c text, pattern.hitAt? (some c) text = none)
include anchored

/-- A pattern that matches only at the beginning of a text does not cut what follows. -/
theorem edit_pieces_behind (c : Char) (text : List Char) :
    (pattern.pieces (some c) text).flatMap (Piece.edit change) = text := by
  have uncut := @pieces_inert pattern text (some c) [] fun early d late split => by
    cases early.getLast? <;> exact anchored _ _
  rw [List.append_nil, pieces_nil, List.append_nil] at uncut
  rw [uncut, List.flatMap_map]
  simp [Piece.edit]

/-- Where such a pattern has a hit, it is replaced once. -/
theorem replaceAll_of_start_hit (hit : pattern.hitAt? none text = some later)
    (change : List Char → List (String × List Char) → List Char) :
    ∃ taken, text = taken ++ later.rest ∧
      pattern.replaceAll change text = change taken later.groups ++ later.rest := by
  obtain ⟨member, shorter⟩ := mem_ends_of_hitAt hit
  obtain ⟨taken, leads, _⟩ := pattern.leads_of_mem_ends member
  have whole : text = taken ++ later.rest := leads.rest
  obtain ⟨c, before⟩ : ∃ c, later.before = some c := by
    rw [leads.before]
    cases taken with
    | nil => simp [whole] at shorter
    | cons => exact ⟨_, by rw [getLast_cons_or, Option.or_some]⟩
  refine ⟨taken, whole, ?_⟩
  rw [replaceAll, pieces_hit hit, leads.taken, before, List.flatMap_cons,
    edit_pieces_behind anchored]
  rfl

/-- Where it has none, nothing is replaced. -/
theorem replaceAll_of_start_none (none : pattern.hitAt? none text = none) :
    pattern.replaceAll change text = text := by
  cases text with
  | nil => simp [replaceAll, pieces_nil]
  | cons =>
    rw [replaceAll, pieces_plain none, List.flatMap_cons, edit_pieces_behind anchored]
    rfl

end Anchored

/-- A pattern that matches only up to the end of a text is taken off there. -/
theorem replaceAll_of_stop
    (anchored : ∀ before text later, pattern.hitAt? before text = some later → later.rest = [])
    (text : List Char) :
    pattern.replaceAll (fun _ _ => []) text = text ∨
      ∃ kept taken before later, text = kept ++ taken ∧
        pattern.replaceAll (fun _ _ => []) text = kept ∧
        pattern.hitAt? before taken = some later := by
  suffices ∀ before, (pattern.pieces before text).flatMap (Piece.edit fun _ _ => []) = text ∨
      ∃ kept taken front later, text = kept ++ taken ∧
        (pattern.pieces before text).flatMap (Piece.edit fun _ _ => []) = kept ∧
        pattern.hitAt? front taken = some later from this none
  intro before
  induction before, text using pieces_induction pattern with
  | nil => simp [pieces_nil]
  | plain before c rest none ih =>
    rw [pieces_plain none, List.flatMap_cons]
    rcases ih with same | ⟨kept, taken, front, later, split, replaced, found⟩
    · exact .inl (by simp [Piece.edit, same])
    · exact .inr ⟨c :: kept, taken, front, later, by simp [split], by simp [Piece.edit, replaced],
        found⟩
  | hit before text later found ih =>
    right
    refine ⟨[], text, before, later, rfl, ?_, found⟩
    rw [pieces_hit found, anchored before text later found, pieces_nil]
    rfl

section

variable (notLonger : ∀ found groups, .hit found groups ∈ pieces →
  (change found groups).length ≤ found.length)
include notLonger

/-- Changes that make no match longer make no text longer. -/
theorem length_edit_le :
    (pieces.flatMap (Piece.edit change)).length ≤
      (pieces.flatMap (Piece.edit fun text _ => text)).length := by
  induction pieces with
  | nil => simp
  | cons piece others ih =>
    have rest := ih fun found groups member =>
      notLonger found groups (List.mem_cons_of_mem _ member)
    rw [List.flatMap_cons, List.flatMap_cons, List.length_append, List.length_append]
    cases piece with
    | plain c => simpa [Piece.edit] using rest
    | hit found groups =>
      have own := notLonger found groups List.mem_cons_self
      simp only [Piece.edit]
      omega

/-- If they keep the length of the text, they keep that of each match. -/
theorem length_change_eq
    (same : (pieces.flatMap (Piece.edit change)).length =
      (pieces.flatMap (Piece.edit fun text _ => text)).length) :
    ∀ found groups, .hit found groups ∈ pieces → (change found groups).length = found.length := by
  induction pieces with
  | nil => simp
  | cons piece others ih =>
    have shorter := fun found groups member =>
      notLonger found groups (List.mem_cons_of_mem piece member)
    have rest := length_edit_le shorter
    rw [List.flatMap_cons, List.flatMap_cons, List.length_append, List.length_append] at same
    intro found groups member
    cases piece with
    | plain c =>
      refine ih shorter ?_ found groups (by simpa using member)
      simpa [Piece.edit] using same
    | hit own ownGroups =>
      have first := notLonger own ownGroups List.mem_cons_self
      simp only [Piece.edit] at same rest
      rcases List.mem_cons.mp member with here | later
      · obtain ⟨rfl, rfl⟩ := Piece.hit.inj here
        omega
      · exact ih shorter (by omega) found groups later

/-- They leave the text as it is if and only if they leave each match as it is. -/
theorem edit_eq_iff :
    pieces.flatMap (Piece.edit change) = pieces.flatMap (Piece.edit fun text _ => text) ↔
      ∀ found groups, .hit found groups ∈ pieces → change found groups = found := by
  constructor
  · intro same
    have lengths := length_change_eq notLonger (congrArg List.length same)
    induction pieces with
    | nil => simp
    | cons piece others ih =>
      rw [List.flatMap_cons, List.flatMap_cons] at same
      have length : (piece.edit change).length = (piece.edit fun text _ => text).length := by
        cases piece with
        | plain c => rfl
        | hit found groups => exact lengths found groups List.mem_cons_self
      obtain ⟨first, rest⟩ := List.append_inj same length
      intro found groups member
      rcases List.mem_cons.mp member with here | later
      · subst here
        exact first
      · exact ih
          (fun found groups member => notLonger found groups (List.mem_cons_of_mem _ member)) rest
          (fun found groups member => lengths found groups (List.mem_cons_of_mem _ member))
          found groups later
  · intro each
    refine List.flatMap_congr fun piece member => ?_
    cases piece with
    | plain c => rfl
    | hit found groups => exact each found groups member

end

section

variable (notLonger : ∀ found groups, .hit found groups ∈ pattern.pieces none text →
  (change found groups).length ≤ found.length)
include notLonger

/-- Replacing matches by nothing longer makes no text longer. -/
theorem length_replaceAll_le :
    (pattern.replaceAll change text).length ≤ text.length := by
  have shorter := length_edit_le notLonger
  rwa [join_pieces] at shorter

/-- Replacing matches by nothing longer leaves a text as it is if and only if it leaves each
match as it is. -/
theorem replaceAll_eq_self_iff :
    pattern.replaceAll change text = text ↔
      ∀ found groups, .hit found groups ∈ pattern.pieces none text →
        change found groups = found := by
  have same := edit_eq_iff notLonger
  rwa [join_pieces] at same

end

/-- Replacing matches by something shorter leaves a text as it is if it leaves its length, and
only if there is no match. -/
theorem replaceAll_eq_self_of_length
    (shorter : ∀ found groups, .hit found groups ∈ pattern.pieces none text →
      (change found groups).length < found.length)
    (same : (pattern.replaceAll change text).length = text.length) :
    pattern.findAll text = [] ∧ pattern.replaceAll change text = text := by
  have notLonger : ∀ found groups, .hit found groups ∈ pattern.pieces none text →
      (change found groups).length ≤ found.length :=
    fun found groups member => Nat.le_of_lt (shorter found groups member)
  have kept := length_change_eq notLonger (by rwa [join_pieces])
  have none (found : List Char) (groups : List (String × List Char)) :
      .hit found groups ∉ pattern.pieces none text := fun member =>
    Nat.ne_of_lt (shorter found groups member) (kept found groups member)
  have nowhere : pattern.findAll text = [] := by
    rw [List.eq_nil_iff_forall_not_mem]
    intro found member
    obtain ⟨groups, listed⟩ := mem_findAll.mp member
    exact none found groups listed
  exact ⟨nowhere, replaceAll_of_findAll nowhere⟩

/-- A sequence of patterns begins with the first of them. -/
theorem ends_seq_cons (first : Pattern) (others : List Pattern) (spot : Spot) :
    (seq (first :: others)).ends spot = (first.ends spot).flatMap (seq others).ends := by
  cases others with
  | nil =>
    have nothing : (seq []).ends = fun spot => [spot] := rfl
    rw [nothing, List.flatMap_singleton']
    rfl
  | cons => rfl

/-- Where the first pattern of a sequence matches, and the others behind that, the whole
sequence matches. -/
theorem matchAt_seq_cons {middle : Spot} (one : first.matchAt? spot = some middle)
    (rest : (seq others).matchAt? middle = some later) :
    (seq (first :: others)).matchAt? spot = some later := by
  obtain ⟨more, written⟩ := List.head?_eq_some_iff.mp one
  rw [matchAt?, ends_seq_cons, written, List.flatMap_cons, List.head?_append]
  rw [matchAt?] at rest
  rw [rest]
  rfl

/-- Of two patterns the second is tried where the first does not match. -/
theorem matchAt_either (preferred other : Pattern) (spot : Spot) :
    (either preferred other).matchAt? spot =
      (preferred.matchAt? spot).or (other.matchAt? spot) :=
  List.head?_append

/-- A pattern with a name keeps the piece that it takes. -/
theorem matchAt_named (name : String) (body : Pattern) (spot : Spot) :
    (named name body).matchAt? spot = (body.matchAt? spot).map fun later =>
      { later with groups := (name, spot.taken later) :: later.groups } :=
  List.head?_map

theorem matchAt_few (body : Pattern) (spot : Spot) : (few body).matchAt? spot = some spot := by
  rw [matchAt?, ends]
  cases spot.rest.length <;> rfl

/-- Where the others do not match, one more repetition is tried. -/
theorem matchAt_few_cons (accepted : accepts c = true)
    (none : (seq others).ends ⟨before, c :: rest, groups⟩ = []) :
    (seq (few (one accepts) :: others)).matchAt? ⟨before, c :: rest, groups⟩ =
      (seq (few (one accepts) :: others)).matchAt? ⟨some c, rest, groups⟩ := by
  have further : (few (one accepts)).ends ⟨before, c :: rest, groups⟩ =
      ⟨before, c :: rest, groups⟩ :: (few (one accepts)).ends ⟨some c, rest, groups⟩ := by
    simp [ends, repeated, accepted]
  rw [matchAt?, ends_seq_cons, further, List.flatMap_cons, none, List.nil_append, matchAt?,
    ends_seq_cons]

/-- The pattern matches exactly the texts of a language, wherever they stand. -/
def Describes (pattern : Pattern) (language : List Char → Prop) : Prop :=
  ∀ spot later, later ∈ pattern.ends spot ↔
    ∃ taken, language taken ∧ spot.rest = taken ++ later.rest ∧ later = spot.past taken

theorem describes_one (accepts : Char → Bool) :
    (one accepts).Describes fun text => ∃ c, accepts c = true ∧ text = [c] := by
  rintro ⟨before, rest, groups⟩ later
  cases rest with
  | nil =>
    simp only [ends, List.not_mem_nil, false_iff]
    rintro ⟨taken, ⟨c, _, rfl⟩, split, _⟩
    contradiction
  | cons c rest =>
    by_cases accepted : accepts c = true
    · simp only [ends, accepted, ↓reduceIte, List.mem_singleton]
      constructor
      · rintro rfl
        exact ⟨[c], ⟨c, accepted, rfl⟩, rfl, rfl⟩
      · rintro ⟨taken, ⟨d, _, rfl⟩, split, rfl⟩
        obtain ⟨rfl, _⟩ := List.cons.inj split
        rfl
    · simp only [ends, accepted, Bool.false_eq_true, ↓reduceIte, List.not_mem_nil, false_iff]
      rintro ⟨taken, ⟨d, inside, rfl⟩, split, _⟩
      exact accepted ((List.cons.inj split).1 ▸ inside)

theorem describes_nothing : nothing.Describes (· = []) := by
  intro spot later
  simp only [ends, List.mem_singleton]
  constructor
  · rintro rfl
    exact ⟨[], rfl, rfl, rfl⟩
  · rintro ⟨taken, rfl, _, rfl⟩
    rfl

/-- If only one text of the language stands at a place, the match is that text. -/
theorem Describes.matchAt {language : List Char → Prop} (describes : pattern.Describes language)
    {word : List Char} (inside : language word) (text : spot.rest = word ++ rest)
    (unique : ∀ taken more, language taken → spot.rest = taken ++ more → taken = word) :
    pattern.matchAt? spot = some (spot.past word) := by
  have behind : (spot.past word).rest = rest := by simp [Spot.past, text]
  have member : spot.past word ∈ pattern.ends spot :=
    (describes _ _).mpr ⟨word, inside, by rw [behind, text], rfl⟩
  have first := List.head?_eq_some_head (List.ne_nil_of_mem member)
  obtain ⟨taken, known, split, same⟩ := (describes spot _).mp (List.mem_of_head? first)
  rw [matchAt?, first, same, unique taken _ known split]

/-- A text of one language and behind it a text of another one. -/
theorem Describes.both {second : Pattern} {early late : List Char → Prop}
    (firstIs : first.Describes early) (secondIs : second.Describes late) :
    (both first second).Describes fun text =>
      ∃ taken more, early taken ∧ late more ∧ text = taken ++ more := by
  intro spot later
  rw [ends, List.mem_flatMap]
  constructor
  · rintro ⟨middle, firstMember, secondMember⟩
    obtain ⟨taken, inFirst, split, rfl⟩ := (firstIs _ _).mp firstMember
    obtain ⟨more, inSecond, behind, rfl⟩ := (secondIs _ _).mp secondMember
    refine ⟨taken ++ more, ⟨taken, more, inFirst, inSecond, rfl⟩, ?_, by simp⟩
    rw [split, behind, List.append_assoc]
  · rintro ⟨_, ⟨taken, more, inFirst, inSecond, rfl⟩, split, same⟩
    have middle : (spot.past taken).rest = more ++ later.rest := by simp [Spot.past, split]
    refine ⟨spot.past taken, (firstIs _ _).mpr ⟨taken, inFirst, ?_, rfl⟩,
      (secondIs _ _).mpr ⟨more, inSecond, middle, by simpa using same⟩⟩
    rw [middle, split, List.append_assoc]

/-- A text of one of two languages. -/
theorem Describes.either {preferred other : Pattern} {one second : List Char → Prop}
    (preferredIs : preferred.Describes one) (otherIs : other.Describes second) :
    (either preferred other).Describes fun text => one text ∨ second text := by
  intro spot later
  rw [ends, List.mem_append, preferredIs, otherIs]
  constructor
  · rintro (⟨taken, inside, matched⟩ | ⟨taken, inside, matched⟩)
    · exact ⟨taken, .inl inside, matched⟩
    · exact ⟨taken, .inr inside, matched⟩
  · rintro ⟨taken, inside | inside, matched⟩
    · exact .inl ⟨taken, inside, matched⟩
    · exact .inr ⟨taken, inside, matched⟩

/-- The same language in other words. -/
theorem Describes.congr {language other : List Char → Prop}
    (describes : pattern.Describes language) (same : ∀ text, language text ↔ other text) :
    pattern.Describes other := by
  intro spot later
  simp only [describes spot later, same]

/-- A sequence of patterns, the first one and the others. -/
theorem Describes.cons {early late : List Char → Prop} (firstIs : first.Describes early)
    (othersAre : (seq others).Describes late) :
    (seq (first :: others)).Describes fun text =>
      ∃ taken more, early taken ∧ late more ∧ text = taken ++ more := by
  intro spot later
  rw [ends_seq_cons]
  exact firstIs.both othersAre spot later

/-- Where a sequence matches, its first pattern matches and the others match behind it. -/
theorem Describes.mem_seq {language : List Char → Prop} (describes : first.Describes language) :
    later ∈ (seq (first :: others)).ends spot ↔ ∃ taken, language taken ∧
      spot.rest = taken ++ (spot.past taken).rest ∧
      later ∈ (seq others).ends (spot.past taken) := by
  rw [ends_seq_cons, List.mem_flatMap]
  constructor
  · rintro ⟨middle, member, behind⟩
    obtain ⟨taken, inside, split, rfl⟩ := (describes spot middle).mp member
    exact ⟨taken, inside, split, behind⟩
  · rintro ⟨taken, inside, split, behind⟩
    exact ⟨_, (describes spot _).mpr ⟨taken, inside, split, rfl⟩, behind⟩

theorem mem_seq_nil : later ∈ (seq []).ends spot ↔ later = spot := List.mem_singleton

/-- The sequence goes on at the beginning of the text. -/
theorem mem_seq_start : later ∈ (seq (start :: others)).ends spot ↔
    spot.before = none ∧ later ∈ (seq others).ends spot := by
  rw [ends_seq_cons, ends]
  split <;> simp_all

/-- It goes on at the border of a word. -/
theorem mem_seq_wordEdge : later ∈ (seq (wordEdge :: others)).ends spot ↔
    spot.atWordEdge = true ∧ later ∈ (seq others).ends spot := by
  rw [ends_seq_cons, ends]
  split <;> simp_all

/-- It goes on at the end of the text. -/
theorem mem_seq_stop : later ∈ (seq (stop :: others)).ends spot ↔
    spot.rest = [] ∧ later ∈ (seq others).ends spot := by
  rw [ends_seq_cons, ends]
  split <;> simp_all

/-- Repetitions of one character stop where there is no text left, or another character. -/
theorem ends_many_stuck (stuck : ∀ c ∈ spot.rest.head?, accepts c = false) :
    (many (one accepts)).ends spot = [spot] := by
  obtain ⟨before, rest, groups⟩ := spot
  cases rest with
  | nil => rfl
  | cons c rest =>
    have refused : accepts c = false := stuck c rfl
    simp [ends, repeated, refused]

/-- They go on over a character of the class before they stop in front of it. -/
theorem ends_many_cons (accepted : accepts c = true) :
    (many (one accepts)).ends ⟨before, c :: rest, groups⟩ =
      (many (one accepts)).ends ⟨some c, rest, groups⟩ ++ [⟨before, c :: rest, groups⟩] := by
  simp [ends, repeated, accepted]

/-- The preferred way is to take all characters of the class. -/
theorem head_ends_many (accepts : Char → Bool) (spot : Spot) :
    ((many (one accepts)).ends spot).head? = some (spot.past (spot.rest.takeWhile accepts)) := by
  obtain ⟨before, rest, groups⟩ := spot
  induction rest generalizing before with
  | nil => rfl
  | cons c rest ih =>
    by_cases accepted : accepts c = true
    · rw [ends_many_cons accepted, List.head?_append, ih]
      simp [Spot.past, accepted, getLast_cons_or]
    · rw [ends_many_stuck (by simpa using accepted)]
      simp [Spot.past, accepted]

theorem describes_many (accepts : Char → Bool) :
    (many (one accepts)).Describes fun text => ∀ c ∈ text, accepts c = true := by
  rintro ⟨before, rest, groups⟩ later
  induction rest generalizing before with
  | nil =>
    rw [ends_many_stuck (by simp), List.mem_singleton]
    constructor
    · rintro rfl
      exact ⟨[], by simp, rfl, rfl⟩
    · rintro ⟨taken, _, split, rfl⟩
      simp only [List.nil_eq, List.append_eq_nil_iff] at split
      simp [split.1]
  | cons c rest ih =>
    by_cases accepted : accepts c = true
    · rw [ends_many_cons accepted, List.mem_append, ih, List.mem_singleton]
      constructor
      · rintro (⟨taken, inside, split, rfl⟩ | rfl)
        · refine ⟨c :: taken, by simpa [accepted] using inside, ?_, ?_⟩
          · exact congrArg (c :: ·) split
          · simp [Spot.past, getLast_cons_or]
        · exact ⟨[], by simp, rfl, rfl⟩
      · rintro ⟨taken, inside, split, rfl⟩
        cases taken with
        | nil => exact .inr rfl
        | cons d taken =>
          obtain ⟨rfl, tail⟩ := List.cons.inj split
          refine .inl ⟨taken, fun d member => inside d (List.mem_cons_of_mem _ member), tail, ?_⟩
          simp [Spot.past, getLast_cons_or]
    · rw [ends_many_stuck (by simpa using accepted), List.mem_singleton]
      constructor
      · rintro rfl
        exact ⟨[], by simp, rfl, rfl⟩
      · rintro ⟨taken, inside, split, rfl⟩
        cases taken with
        | nil => rfl
        | cons =>
          obtain ⟨rfl, _⟩ := List.cons.inj split
          exact absurd (inside c List.mem_cons_self) accepted

/-- At least one character of a class. -/
theorem describes_many1 (accepts : Char → Bool) :
    (many1 (one accepts)).Describes fun text => text ≠ [] ∧ ∀ c ∈ text, accepts c = true := by
  refine ((describes_one accepts).both (describes_many accepts)).congr fun text => ?_
  constructor
  · rintro ⟨_, more, ⟨c, accepted, rfl⟩, inside, rfl⟩
    exact ⟨by simp, by simpa [accepted] using inside⟩
  · rintro ⟨some, inside⟩
    obtain ⟨c, more, rfl⟩ := List.exists_cons_of_ne_nil some
    rw [List.forall_mem_cons] at inside
    exact ⟨[c], more, ⟨c, inside.1, rfl⟩, inside.2, rfl⟩

/-- The matches in a text are texts of the language. -/
theorem Describes.of_mem_pieces {language : List Char → Prop}
    (describes : pattern.Describes language)
    (member : .hit found groups ∈ pattern.pieces before text) : language found := by
  obtain ⟨front, rest, later, hit, rfl, _⟩ := exists_hit_of_mem_pieces member
  obtain ⟨taken, inside, split, _⟩ := (describes _ later).mp (mem_ends_of_hitAt hit).1
  exact List.append_cancel_right split ▸ inside

theorem describes_char (c : Char) : (char c).Describes (· = [c]) :=
  (describes_one (· == c)).congr fun text => by simp

theorem describes_literal (word : String) : (literal word).Describes (· = word.toList) := by
  rw [literal]
  generalize word.toList = letters
  induction letters with
  | nil => exact describes_nothing
  | cons c letters ih =>
    refine ((describes_char c).cons ih).congr fun text => ?_
    constructor
    · rintro ⟨_, _, rfl, rfl, rfl⟩
      rfl
    · rintro rfl
      exact ⟨[c], letters, rfl, rfl, rfl⟩

theorem describes_anyCase (word : String) :
    (anyCase word).Describes fun text => text.map foldKey = word.toList.map foldKey := by
  rw [anyCase]
  generalize word.toList = letters
  induction letters with
  | nil => exact describes_nothing.congr fun text => by simp
  | cons c letters ih =>
    refine ((describes_one fun x => foldKey x == foldKey c).cons ih).congr ?_
    intro text
    cases text with
    | nil => simp
    | cons d text =>
      constructor
      · rintro ⟨_, more, ⟨x, same, rfl⟩, rest, split⟩
        cases split
        simp only [List.map_cons, List.cons.injEq]
        exact ⟨by simpa using same, rest⟩
      · intro same
        obtain ⟨first, rest⟩ := List.cons.inj same
        exact ⟨[d], text, ⟨d, by simpa using first, rfl⟩, rest, rfl⟩

section Sequences

variable {others : List Pattern}

/-- A word in some letter case at the beginning of a sequence. -/
theorem matchAt_seq_word {word : String} (taken : List Char)
    (same : taken.map foldKey = word.toList.map foldKey)
    (behind : (seq others).matchAt? ⟨taken.getLast?.or before, rest, groups⟩ = some later) :
    (seq (anyCase word :: others)).matchAt? ⟨before, taken ++ rest, groups⟩ = some later := by
  have unique (other more : List Char) (also : other.map foldKey = word.toList.map foldKey)
      (split : taken ++ rest = other ++ more) : other = taken := by
    have length : other.length = taken.length := by
      have lengths := congrArg List.length (also.trans same.symm)
      simpa using lengths
    exact (List.append_inj split.symm length).1
  refine matchAt_seq_cons ((describes_anyCase word).matchAt same rfl unique) ?_
  simpa [Spot.past] using behind

/-- A given character at the beginning of a sequence. -/
theorem matchAt_seq_char (behind : (seq others).matchAt? ⟨some c, rest, groups⟩ = some later) :
    (seq (char c :: others)).matchAt? ⟨before, c :: rest, groups⟩ = some later :=
  matchAt_seq_cons (by simp [matchAt?, char, ends]) behind

/-- A run of a class at the beginning of a sequence. -/
theorem matchAt_seq_many (taken : List Char) (inside : ∀ c ∈ taken, accepts c = true)
    (stops : rest.head?.any accepts = false)
    (behind : (seq others).matchAt? ⟨taken.getLast?.or before, rest, groups⟩ = some later) :
    (seq (many (one accepts) :: others)).matchAt? ⟨before, taken ++ rest, groups⟩ =
      some later := by
  have run : (taken ++ rest).takeWhile accepts = taken := by
    rw [List.takeWhile_append_of_pos inside]
    cases rest with
    | nil => simp
    | cons c rest =>
      have refused : accepts c = false := stops
      simp [refused]
  refine matchAt_seq_cons (head_ends_many _ _) ?_
  simpa [run, Spot.past] using behind

/-- A run of a class that is not empty. -/
theorem matchAt_seq_many1 (c : Char) (taken : List Char)
    (inside : ∀ d ∈ c :: taken, accepts d = true) (stops : rest.head?.any accepts = false)
    (behind : (seq others).matchAt? ⟨taken.getLast?.or (some c), rest, groups⟩ = some later) :
    (seq (many1 (one accepts) :: others)).matchAt? ⟨before, c :: (taken ++ rest), groups⟩ =
      some later := by
  obtain ⟨accepted, more⟩ := List.forall_mem_cons.mp inside
  have first : (one accepts).ends ⟨before, c :: (taken ++ rest), groups⟩ =
      [⟨some c, taken ++ rest, groups⟩] := by simp [ends, accepted]
  have whole : (seq (many1 (one accepts) :: others)).ends ⟨before, c :: (taken ++ rest), groups⟩ =
      (seq (many (one accepts) :: others)).ends ⟨some c, taken ++ rest, groups⟩ := by
    rw [ends_seq_cons, many1, ends, first, List.flatMap_singleton, ← ends_seq_cons]
  rw [matchAt?, whole]
  exact matchAt_seq_many taken more stops behind

end Sequences

end Pattern

end Detection.Text

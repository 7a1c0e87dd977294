import Detection.LogSource
import Detection.Proofs.PatternMatching
import Mathlib.Logic.Function.Iterate

/-!
# What cleaning does to a query

A round of cleaning replaces empty parentheses by a blank, drops connectives next to a
parenthesis and connectives behind a connective, and takes one off each end of the query.
Each of these steps is described by the texts that its pattern matches.

None of the patterns takes a quote or a backslash. These characters are walls for the
cleaning: what happens between two of them depends on what stands between them alone, and a
step that changes something there leaves something there. Only the two steps at the ends of
the query are bound to a place.
-/
namespace Detection.Selector

open Text Pattern

variable {text found : List Char} {later spot : Spot} {pattern : Pattern}
  {groups : List (String × List Char)}

/-- One of the words `and` and `or` in any letter case. -/
def IsConnective (word : List Char) : Prop :=
  word.map foldKey = ['a', 'n', 'd'] ∨ word.map foldKey = ['o', 'r']

instance : DecidablePred IsConnective :=
  fun word => inferInstanceAs (Decidable (word.map foldKey = ['a', 'n', 'd'] ∨ _))

theorem IsConnective.ne_nil {word : List Char} (connective : IsConnective word) : word ≠ [] := by
  rintro rfl
  rcases connective with empty | empty <;> simp at empty

/-- A letter in some case is neither white space nor a parenthesis nor a quote. -/
theorem visible_of_letter {c : Char} {letters : List Char} (letter : foldKey c ∈ letters)
    (others : [' ', '\t', '\n', '\r', '\x0c', '(', ')', '"'].all
      (fun special => foldKey special ∉ letters) = true) :
    isSpace c = false ∧ c ∉ ['(', ')', '"'] := by
  have apart : c ∉ [' ', '\t', '\n', '\r', '\x0c', '(', ')', '"'] := fun special =>
    all_decide_iff.mp others c special letter
  simp only [List.mem_cons, List.not_mem_nil, not_or] at apart
  simp [isSpace, isGap, apart]

/-- The letters of a connective are visible. -/
theorem visible_of_connective {c : Char} {word : List Char} (connective : IsConnective word)
    (member : c ∈ word) : isSpace c = false ∧ c ∉ ['(', ')', '"'] := by
  have letter : foldKey c ∈ ['a', 'n', 'd', 'o', 'r'] := by
    have folded : foldKey c ∈ word.map foldKey := List.mem_map_of_mem member
    rcases connective with same | same
    · rw [same] at folded
      exact List.mem_append_left ['o', 'r'] folded
    · rw [same] at folded
      exact List.mem_append_right ['a', 'n', 'd'] folded
  exact visible_of_letter letter (by decide)

theorem describes_connective : connective.Describes IsConnective :=
  (describes_anyCase "and").either (describes_anyCase "or")

theorem describes_spaces : spaces.Describes fun text => ∀ c ∈ text, isSpace c = true :=
  describes_many isSpace

theorem describes_spaces1 :
    spaces1.Describes fun text => text ≠ [] ∧ ∀ c ∈ text, isSpace c = true :=
  describes_many1 isSpace

/-- Empty parentheses hold white space only. -/
theorem describes_emptyParens :
    emptyParens.Describes fun text =>
      ∃ gap, (∀ c ∈ gap, isSpace c = true) ∧ text = '(' :: (gap ++ [')']) := by
  have closing : (seq [char ')']).Describes (· = [')']) := describes_char ')'
  refine ((describes_char '(').cons (describes_spaces.cons closing)).congr fun text => ?_
  constructor
  · rintro ⟨_, _, rfl, ⟨gap, _, blank, rfl, rfl⟩, rfl⟩
    exact ⟨gap, blank, rfl⟩
  · rintro ⟨gap, blank, rfl⟩
    exact ⟨['('], _, rfl, ⟨gap, _, blank, rfl, rfl⟩, rfl⟩

/-- A connective between an opening parenthesis and white space, or between white space and a
closing one. -/
theorem describes_danglingInside :
    danglingInside.Describes fun text =>
      (∃ gap word behind, (∀ c ∈ gap, isSpace c = true) ∧ IsConnective word ∧
        (behind ≠ [] ∧ ∀ c ∈ behind, isSpace c = true) ∧ text = '(' :: (gap ++ (word ++ behind))) ∨
      ∃ gap word behind, (gap ≠ [] ∧ ∀ c ∈ gap, isSpace c = true) ∧ IsConnective word ∧
        (∀ c ∈ behind, isSpace c = true) ∧ text = gap ++ (word ++ (behind ++ [')'])) := by
  have spaced : (seq [spaces1]).Describes _ := describes_spaces1
  have closing : (seq [char ')']).Describes (· = [')']) := describes_char ')'
  refine (((describes_char '(').cons (describes_spaces.cons (describes_connective.cons
    spaced))).either (describes_spaces1.cons (describes_connective.cons (describes_spaces.cons
    closing)))).congr fun text => or_congr ?_ ?_
  · constructor
    · rintro ⟨_, _, rfl, ⟨gap, _, blank, ⟨word, behind, isWord, spaced, rfl⟩, rfl⟩, rfl⟩
      exact ⟨gap, word, behind, blank, isWord, spaced, rfl⟩
    · rintro ⟨gap, word, behind, blank, isWord, spaced, rfl⟩
      exact ⟨['('], _, rfl, ⟨gap, _, blank, ⟨word, behind, isWord, spaced, rfl⟩, rfl⟩, rfl⟩
  · constructor
    · rintro ⟨gap, _, spaced, ⟨word, _, isWord, ⟨behind, _, blank, rfl, rfl⟩, rfl⟩, rfl⟩
      exact ⟨gap, word, behind, spaced, isWord, blank, rfl⟩
    · rintro ⟨gap, word, behind, spaced, isWord, blank, rfl⟩
      exact ⟨gap, _, spaced, ⟨word, _, isWord, ⟨behind, _, blank, rfl, rfl⟩, rfl⟩, rfl⟩

def another : Pattern :=
  seq [spaces1, connective, wordEdge]

theorem mem_ends_another :
    later ∈ another.ends spot ↔ later.atWordEdge = true ∧
      ∃ gap word, (gap ≠ [] ∧ ∀ c ∈ gap, isSpace c = true) ∧ IsConnective word ∧
        spot.rest = gap ++ (word ++ later.rest) ∧ later = spot.past (gap ++ word) := by
  simp only [another, describes_spaces1.mem_seq, describes_connective.mem_seq, mem_seq_wordEdge,
    mem_seq_nil, Spot.past_past]
  constructor
  · rintro ⟨gap, spaced, split, word, isWord, rest, edge, rfl⟩
    exact ⟨edge, gap, word, spaced, isWord, split.trans (congrArg (gap ++ ·) rest), rfl⟩
  · rintro ⟨edge, gap, word, spaced, isWord, split, rfl⟩
    have rest := Spot.past_rest split
    exact ⟨gap, spaced, split.trans (rest ▸ rfl), word, isWord, rest, edge, rfl⟩

/-- A match of several connectives in a row: the first of them at the border of a word, and
behind it one or more others. -/
theorem mem_ends_doubledConnective :
    later ∈ doubledConnective.ends spot ↔
      spot.atWordEdge = true ∧ ∃ first next, IsConnective first ∧
        spot.rest = first ++ (spot.past first).rest ∧
        next ∈ another.ends { spot.past first with groups := ("first", first) :: spot.groups } ∧
        later ∈ (many another).ends next := by
  rw [doubledConnective, mem_seq_wordEdge, ends_seq_cons, List.mem_flatMap]
  refine and_congr_right fun _ => ⟨?_, ?_⟩
  · rintro ⟨middle, named, more⟩
    obtain ⟨inner, found, rfl⟩ := List.mem_map.mp named
    obtain ⟨first, isWord, text, rfl⟩ := (describes_connective spot inner).mp found
    have leads : spot.Leads first (spot.past first) := ⟨text, rfl⟩
    rw [leads.taken] at more
    obtain ⟨next, step, others⟩ := List.mem_flatMap.mp more
    exact ⟨first, next, isWord, text, step, others⟩
  · rintro ⟨first, next, isWord, text, step, others⟩
    have leads : spot.Leads first (spot.past first) := ⟨text, rfl⟩
    refine ⟨_, List.mem_map_of_mem ((describes_connective spot _).mpr ⟨first, isWord, text, rfl⟩),
      ?_⟩
    rw [leads.taken]
    exact List.mem_flatMap.mpr ⟨next, step, others⟩

/-- Connectives behind a connective begin with white space and keep no further piece. -/
theorem leads_of_another {next : Spot} (step : next ∈ another.ends spot)
    (steps : Relation.ReflTransGen (fun spot later => later ∈ another.ends spot) next later) :
    later.groups = spot.groups ∧
      ∃ c taken, isSpace c = true ∧ spot.rest = c :: (taken ++ later.rest) := by
  obtain ⟨_, gap, word, ⟨spaced, blank⟩, _, text, rfl⟩ := mem_ends_another.mp step
  obtain ⟨c, others, rfl⟩ := List.exists_cons_of_ne_nil spaced
  induction steps with
  | refl => exact ⟨rfl, c, others ++ word, blank c List.mem_cons_self, by simpa using text⟩
  | tail _ last ih =>
    obtain ⟨groups, d, taken, space, whole⟩ := ih
    obtain ⟨_, behind, other, _, _, rest, rfl⟩ := mem_ends_another.mp last
    refine ⟨groups, d, taken ++ (behind ++ other), space, ?_⟩
    rw [whole, rest]
    simp

/-- What is kept of connectives in a row is the first, and there is more to drop. -/
theorem hit_doubledConnective {before : Option Char}
    (hit : doubledConnective.hitAt? before text = some later) :
    ∃ first c more, IsConnective first ∧ isSpace c = true ∧
      text = first ++ (c :: more ++ later.rest) ∧ later.groups = [("first", first)] := by
  obtain ⟨_, first, next, isWord, whole, step, steps⟩ :=
    mem_ends_doubledConnective.mp (mem_ends_of_hitAt hit).1
  obtain ⟨groups, c, more, space, rest⟩ := leads_of_another step (steps_of_repeated steps)
  exact ⟨first, c, more, isWord, space, whole.trans (congrArg _ rest), groups⟩

/-- A connective at the beginning, with white space behind it. -/
theorem mem_ends_danglingLead :
    later ∈ danglingLead.ends spot ↔
      spot.before = none ∧ ∃ gap word behind, (∀ c ∈ gap, isSpace c = true) ∧ IsConnective word ∧
        (behind ≠ [] ∧ ∀ c ∈ behind, isSpace c = true) ∧
        spot.rest = gap ++ (word ++ (behind ++ later.rest)) ∧
        later = spot.past (gap ++ (word ++ behind)) := by
  simp only [danglingLead, mem_seq_start, describes_spaces.mem_seq, describes_connective.mem_seq,
    describes_spaces1.mem_seq, mem_seq_nil, Spot.past_past, List.append_assoc]
  refine and_congr_right fun _ => ⟨?_, ?_⟩
  · rintro ⟨gap, blank, split, word, isWord, second, behind, spaced, third, rfl⟩
    exact ⟨gap, word, behind, blank, isWord, spaced, by rw [← third, ← second, ← split], rfl⟩
  · rintro ⟨gap, word, behind, blank, isWord, spaced, split, rfl⟩
    have second := Spot.past_rest split
    have third := Spot.past_rest second
    rw [Spot.past_past] at third
    exact ⟨gap, blank, split.trans (second ▸ rfl), word, isWord, second.trans (third ▸ rfl), behind,
      spaced, third, rfl⟩

/-- A connective at the end, with white space in front of it. -/
theorem mem_ends_danglingTrail :
    later ∈ danglingTrail.ends spot ↔
      later.rest = [] ∧ ∃ gap word behind, (gap ≠ [] ∧ ∀ c ∈ gap, isSpace c = true) ∧
        IsConnective word ∧ (∀ c ∈ behind, isSpace c = true) ∧
        spot.rest = gap ++ (word ++ behind) ∧ later = spot.past (gap ++ (word ++ behind)) := by
  simp only [danglingTrail, describes_spaces1.mem_seq, describes_connective.mem_seq,
    describes_spaces.mem_seq, mem_seq_stop, mem_seq_nil, Spot.past_past, List.append_assoc]
  constructor
  · rintro ⟨gap, spaced, split, word, isWord, second, behind, blank, third, ended, rfl⟩
    rw [ended, List.append_nil] at third
    exact ⟨ended, gap, word, behind, spaced, isWord, blank, by rw [← third, ← second, ← split], rfl⟩
  · rintro ⟨ended, gap, word, behind, spaced, isWord, blank, split, rfl⟩
    have second := Spot.past_rest split
    have third := Spot.past_rest second
    rw [Spot.past_past] at third
    exact ⟨gap, spaced, split.trans (second ▸ rfl), word, isWord, second.trans (third ▸ rfl),
      behind, blank, by simpa [ended] using third, ended, rfl⟩

/-- A text with a blank for empty parentheses. -/
def dropParens (text : List Char) : List Char :=
  emptyParens.replaceAll (fun _ _ => [' ']) text

/-- A text without the connectives next to a parenthesis. -/
def dropInside (text : List Char) : List Char :=
  danglingInside.replaceAll (fun found _ => if found.contains '(' then ['('] else [')']) text

/-- A text without the connectives behind a connective. -/
def dropDoubled (text : List Char) : List Char :=
  doubledConnective.replaceAll (fun _ groups => (groups.lookup "first").getD []) text

/-- The steps of a round of cleaning that are bound to no place. -/
def tidy (text : List Char) : List Char :=
  dropDoubled (dropInside (dropParens text))

/-- A text without a connective at its beginning. -/
def dropLead (text : List Char) : List Char :=
  danglingLead.replaceAll (fun _ _ => []) text

/-- A text without a connective at its end. -/
def dropTrail (text : List Char) : List Char :=
  danglingTrail.replaceAll (fun _ _ => []) text

/-- A text with one blank for every run of white space. -/
def collapse (text : List Char) : List Char :=
  spaces1.replaceAll (fun _ _ => [' ']) text

theorem cleanOnce_eq (text : List Char) : cleanOnce text = dropTrail (dropLead (tidy text)) := rfl

theorem clean_eq (text : List Char) : clean text = trimChars (collapse (cleanAll text)) := rfl

/-- The characters that no step of cleaning takes. -/
def isWall (c : Char) : Bool :=
  c == '"' || c == '\'' || c == '\\'

/-- A change of texts that is made between walls separately, that brings no wall in, and that
leaves something wherever there was something. -/
structure ActsBetweenWalls (change : List Char → List Char) : Prop where
  wall : ∀ text mark tail, isWall mark = true →
    change (text ++ mark :: tail) = change text ++ mark :: change tail
  free : ∀ text, (∀ c ∈ text, isWall c = false) → ∀ c ∈ change text, isWall c = false
  nil_iff : ∀ text, change text = [] ↔ text = []
  length_le : ∀ text, (change text).length ≤ text.length

namespace ActsBetweenWalls

variable {change other : List Char → List Char}

theorem id : ActsBetweenWalls id :=
  ⟨fun _ _ _ _ => rfl, fun _ inside => inside, fun _ => Iff.rfl, fun _ => Nat.le_refl _⟩

theorem comp (acts : ActsBetweenWalls change) (others : ActsBetweenWalls other) :
    ActsBetweenWalls (change ∘ other) where
  wall text mark tail isWall := by
    rw [Function.comp_apply, others.wall text mark tail isWall, acts.wall _ mark _ isWall]
    rfl
  free text inside := acts.free _ (others.free text inside)
  nil_iff text := (acts.nil_iff _).trans (others.nil_iff text)
  length_le text := Nat.le_trans (acts.length_le _) (others.length_le text)

theorem iterate (acts : ActsBetweenWalls change) (rounds : Nat) :
    ActsBetweenWalls (change^[rounds]) := by
  induction rounds with
  | zero => exact .id
  | succ rounds ih => exact ih.comp acts

theorem nil (acts : ActsBetweenWalls change) : change [] = [] := (acts.nil_iff []).mpr rfl

/-- Replacing the matches of a pattern acts between walls, where a match becomes neither empty
nor longer and gets no wall. -/
theorem replaceAll {change : List Char → List (String × List Char) → List Char}
    (stops : ∀ mark, isWall mark = true → pattern.stopsAt mark = true)
    (unanchored : pattern.unanchored = true)
    (each : ∀ text found groups, .hit found groups ∈ pattern.pieces none text →
      change found groups ≠ [] ∧ (change found groups).length ≤ found.length ∧
        ∀ c ∈ change found groups, c ∈ found ∨ isWall c = false) :
    ActsBetweenWalls (pattern.replaceAll change) where
  wall text mark tail isWall := by
    have outside : isWord mark = false := by
      simp only [Selector.isWall, Bool.or_eq_true, beq_iff_eq] at isWall
      rcases isWall with (rfl | rfl) | rfl <;> rfl
    exact replaceAll_wall (stops mark isWall) unanchored outside text tail
  free text inside := by
    refine forall_mem_replaceAll inside fun found groups member c own => ?_
    rcases (each text found groups member).2.2 c own with inFound | outside
    · exact inside c (mem_of_mem_pieces member inFound)
    · exact outside
  nil_iff text := replaceAll_eq_nil_iff fun found groups member => (each text found groups member).1
  length_le text := length_replaceAll_le fun found groups member =>
    (each text found groups member).2.1

end ActsBetweenWalls

/-- No pattern of the cleaning gets past a wall. -/
theorem stopsAt_wall (stops : pattern.stopsAt '"' = true) (also : pattern.stopsAt '\'' = true)
    (too : pattern.stopsAt '\\' = true) (mark : Char) (wall : isWall mark = true) :
    pattern.stopsAt mark = true := by
  simp only [isWall, Bool.or_eq_true, beq_iff_eq] at wall
  rcases wall with (rfl | rfl) | rfl
  · exact stops
  · exact also
  · exact too

theorem shrinks_emptyParens (member : .hit found groups ∈ emptyParens.pieces none text) :
    [' '].length < found.length := by
  obtain ⟨gap, _, rfl⟩ := describes_emptyParens.of_mem_pieces member
  simp

/-- Of a connective next to a parenthesis only the parenthesis stays. -/
theorem shrinks_danglingInside (member : .hit found groups ∈ danglingInside.pieces none text) :
    (if found.contains '(' then ['('] else [')']).length < found.length := by
  have single : (if found.contains '(' then ['('] else [')']).length = 1 := by split <;> rfl
  rw [single]
  rcases describes_danglingInside.of_mem_pieces member with
    ⟨gap, word, behind, _, isWord, ⟨spaced, _⟩, rfl⟩ |
    ⟨gap, word, behind, ⟨spaced, _⟩, isWord, _, rfl⟩
  all_goals
    have some := List.length_pos_iff.mpr isWord.ne_nil
    simp only [List.length_cons, List.length_append]
    omega

/-- Connectives in a row become the first of them. -/
theorem shrinks_doubledConnective
    (member : .hit found groups ∈ doubledConnective.pieces none text) :
    ∃ first c more, (groups.lookup "first").getD [] = first ∧ IsConnective first ∧
      isSpace c = true ∧ found = first ++ c :: more := by
  obtain ⟨front, rest, later, hit, rfl, rfl, _⟩ := exists_hit_of_mem_pieces member
  obtain ⟨first, c, more, isWord, space, split, groups⟩ := hit_doubledConnective hit
  refine ⟨first, c, more, by rw [groups]; rfl, isWord, space, ?_⟩
  rw [← List.append_assoc] at split
  exact List.append_cancel_right split

theorem acts_dropParens : ActsBetweenWalls dropParens := by
  refine .replaceAll (stopsAt_wall rfl rfl rfl) rfl fun text found groups member => ?_
  exact ⟨by simp, Nat.le_of_lt (shrinks_emptyParens member), by simp [isWall]⟩

theorem acts_dropInside : ActsBetweenWalls dropInside := by
  refine .replaceAll (stopsAt_wall rfl rfl rfl) rfl fun text found groups member => ?_
  refine ⟨by split <;> simp, Nat.le_of_lt (shrinks_danglingInside member), ?_⟩
  split <;> simp [isWall]

theorem acts_dropDoubled : ActsBetweenWalls dropDoubled := by
  refine .replaceAll (stopsAt_wall rfl rfl rfl) rfl fun text found groups member => ?_
  obtain ⟨first, c, more, kept, isWord, _, rfl⟩ := shrinks_doubledConnective member
  rw [kept]
  exact ⟨isWord.ne_nil, by simp, fun c own => .inl (List.mem_append_left _ own)⟩

theorem acts_tidy : ActsBetweenWalls tidy :=
  acts_dropDoubled.comp (acts_dropInside.comp acts_dropParens)

theorem acts_collapse : ActsBetweenWalls collapse := by
  refine .replaceAll (stopsAt_wall rfl rfl rfl) rfl fun text found groups member => ?_
  have some := List.length_pos_iff.mpr (describes_spaces1.of_mem_pieces member).1
  exact ⟨by simp, some, by simp [isWall]⟩

/-- A text that cleaning leaves as it is where it stands between walls: it has no empty
parentheses, no connective next to a parenthesis, no connectives in a row, and no white space
but single blanks. -/
structure Undisturbed (text : List Char) : Prop where
  parens : emptyParens.findAll text = []
  inside : danglingInside.findAll text = []
  doubled : doubledConnective.findAll text = []
  blanks : ∀ gap ∈ spaces1.findAll text, gap = [' ']

instance : DecidablePred Undisturbed := fun text =>
  decidable_of_iff (emptyParens.findAll text = [] ∧ danglingInside.findAll text = [] ∧
      doubledConnective.findAll text = [] ∧ ∀ gap ∈ spaces1.findAll text, gap = [' '])
    ⟨fun ⟨parens, inside, doubled, blanks⟩ => ⟨parens, inside, doubled, blanks⟩,
      fun ⟨parens, inside, doubled, blanks⟩ => ⟨parens, inside, doubled, blanks⟩⟩

/-- Tidying leaves a text as it is if it leaves its length, and then it has found nothing. -/
theorem tidy_of_length (same : (tidy text).length = text.length) :
    tidy text = text ∧ emptyParens.findAll text = [] ∧ danglingInside.findAll text = [] ∧
      doubledConnective.findAll text = [] := by
  have first := acts_dropParens.length_le text
  have second := acts_dropInside.length_le (dropParens text)
  have third := acts_dropDoubled.length_le (dropInside (dropParens text))
  rw [tidy] at same ⊢
  obtain ⟨parens, unchanged⟩ : emptyParens.findAll text = [] ∧ dropParens text = text :=
    replaceAll_eq_self_of_length (fun _ _ => shrinks_emptyParens) (by rw [← dropParens]; omega)
  rw [unchanged] at same second third ⊢
  obtain ⟨inside, unchanged⟩ : danglingInside.findAll text = [] ∧ dropInside text = text :=
    replaceAll_eq_self_of_length (fun _ _ => shrinks_danglingInside) (by rw [← dropInside]; omega)
  rw [unchanged] at same third ⊢
  obtain ⟨doubled, unchanged⟩ : doubledConnective.findAll text = [] ∧ dropDoubled text = text := by
    refine replaceAll_eq_self_of_length (fun found groups member => ?_)
      (by rw [← dropDoubled, same])
    obtain ⟨first, c, more, kept, _, _, rfl⟩ := shrinks_doubledConnective member
    rw [kept, List.length_append, List.length_cons]
    omega
  exact ⟨unchanged, parens, inside, doubled⟩

theorem collapse_eq_self_iff :
    collapse text = text ↔ ∀ gap ∈ spaces1.findAll text, gap = [' '] := by
  have notLonger (found : List Char) (groups : List (String × List Char))
      (member : .hit found groups ∈ spaces1.pieces none text) : [' '].length ≤ found.length :=
    List.length_pos_iff.mpr (describes_spaces1.of_mem_pieces member).1
  rw [collapse, replaceAll_eq_self_iff notLonger]
  simp only [mem_findAll, forall_exists_index, eq_comm]

/-- Several rounds of tidying and one blank for every run of white space give a text back if
and only if it is undisturbed. -/
theorem collapse_tidy_eq_iff (rounds : Nat) :
    collapse (tidy^[rounds + 1] text) = text ↔ Undisturbed text := by
  constructor
  · intro back
    change collapse (tidy^[rounds] (tidy text)) = text at back
    have rest := acts_collapse.length_le (tidy^[rounds] (tidy text))
    have others := (acts_tidy.iterate rounds).length_le (tidy text)
    have first := acts_tidy.length_le text
    rw [back] at rest
    have same : (tidy text).length = text.length := by omega
    obtain ⟨unchanged, parens, inside, doubled⟩ := tidy_of_length same
    rw [unchanged, Function.iterate_fixed unchanged] at back
    exact ⟨parens, inside, doubled, collapse_eq_self_iff.mp back⟩
  · rintro ⟨parens, inside, doubled, single⟩
    have unchanged : tidy text = text := by
      rw [tidy, dropParens, replaceAll_of_findAll parens, dropInside, replaceAll_of_findAll inside,
        dropDoubled, replaceAll_of_findAll doubled]
    rw [Function.iterate_fixed unchanged]
    exact collapse_eq_self_iff.mpr single

/-- A match of a pattern that takes no wall has none. -/
theorem free_of_mem_ends (first : pattern.takes '"' = false) (second : pattern.takes '\'' = false)
    (third : pattern.takes '\\' = false) {taken : List Char} (member : later ∈ pattern.ends spot)
    (text : spot.rest = taken ++ later.rest) : ∀ c ∈ taken, isWall c = false := by
  obtain ⟨own, leads, inside⟩ := pattern.leads_of_mem_ends member
  obtain rfl := List.append_cancel_right (text.symm.trans leads.rest)
  intro c listed
  have accepted := inside c listed
  by_contra wall
  simp only [isWall, Bool.or_eq_false_iff, beq_eq_false_iff_ne, ne_eq, not_and_or,
    Decidable.not_not] at wall
  rcases wall with (rfl | rfl) | rfl <;> simp_all

theorem free_of_blank (blank : ∀ c ∈ text, isBlank c = true) : ∀ c ∈ text, isWall c = false := by
  intro c member
  have own := blank c member
  by_contra wall
  simp only [isWall, Bool.or_eq_false_iff, beq_eq_false_iff_ne, ne_eq, not_and_or,
    Decidable.not_not] at wall
  rcases wall with (rfl | rfl) | rfl <;> contradiction

/-- A piece without walls at the end of a text stands behind every wall of the text. -/
theorem exists_behind_wall {front tail kept taken : List Char} {mark : Char}
    (wall : isWall mark = true) (free : ∀ c ∈ taken, isWall c = false)
    (split : front ++ mark :: tail = kept ++ taken) :
    ∃ left, kept = front ++ mark :: left ∧ tail = left ++ taken := by
  have outside : mark ∉ taken := fun member => by simp [free mark member] at wall
  rcases List.append_eq_append_iff.mp split with ⟨more, rfl, rest⟩ | ⟨more, _, rfl⟩
  · cases more with
    | nil =>
      rw [List.nil_append] at rest
      exact absurd (rest ▸ List.mem_cons_self) outside
    | cons c more =>
      obtain ⟨rfl, behind⟩ := List.cons.inj rest
      exact ⟨more, rfl, behind⟩
  · exact absurd (by simp) outside

theorem danglingLead_anchored (c : Char) (text : List Char) :
    danglingLead.hitAt? (some c) text = none :=
  hitAt_eq_none (List.eq_nil_iff_forall_not_mem.mpr fun later member => by
    simpa using (mem_ends_danglingLead.mp member).1)

/-- Dropping a connective at the beginning takes a piece without walls off. -/
theorem exists_append_dropLead (text : List Char) :
    ∃ taken, (∀ c ∈ taken, isWall c = false) ∧ text = taken ++ dropLead text := by
  cases hit : danglingLead.hitAt? none text with
  | none =>
    exact ⟨[], by simp, (replaceAll_of_start_none danglingLead_anchored hit).symm⟩
  | some =>
    obtain ⟨taken, split, dropped⟩ :=
      replaceAll_of_start_hit danglingLead_anchored hit fun _ _ => []
    refine ⟨taken, free_of_mem_ends rfl rfl rfl (mem_ends_of_hitAt hit).1 split, ?_⟩
    rw [dropLead, dropped]
    exact split

/-- Nothing is dropped where no connective can begin. -/
theorem dropLead_of_head {c : Char} {rest : List Char} (visible : isSpace c = false)
    (other : foldKey c ≠ 'a' ∧ foldKey c ≠ 'o') : dropLead (c :: rest) = c :: rest := by
  refine replaceAll_of_start_none danglingLead_anchored (hitAt_eq_none ?_)
  rw [List.eq_nil_iff_forall_not_mem]
  intro later member
  obtain ⟨_, gap, word, behind, blank, isWord, _, split, _⟩ := mem_ends_danglingLead.mp member
  cases gap with
  | cons d gap =>
    obtain rfl : c = d := (List.cons.inj split).1
    simp [blank c List.mem_cons_self] at visible
  | nil =>
    obtain ⟨d, letters, rfl⟩ := List.exists_cons_of_ne_nil isWord.ne_nil
    obtain rfl : c = d := (List.cons.inj split).1
    rcases isWord with same | same
    · exact other.1 (List.cons.inj same).1
    · exact other.2 (List.cons.inj same).1

/-- Dropping a connective at the end takes a piece without walls off. -/
theorem exists_dropTrail_append (text : List Char) :
    ∃ taken, (∀ c ∈ taken, isWall c = false) ∧ text = dropTrail text ++ taken := by
  have anchored (before : Option Char) (text : List Char) (later : Spot)
      (hit : danglingTrail.hitAt? before text = some later) : later.rest = [] :=
    (mem_ends_danglingTrail.mp (mem_ends_of_hitAt hit).1).1
  rcases replaceAll_of_stop anchored text with
    same | ⟨kept, taken, before, later, split, dropped, hit⟩
  · exact ⟨[], by simp, by rw [dropTrail, same, List.append_nil]⟩
  · refine ⟨taken, free_of_mem_ends rfl rfl rfl (mem_ends_of_hitAt hit).1 ?_, ?_⟩
    · simp [anchored before taken later hit]
    · rw [dropTrail, dropped]
      exact split

def steps : List Pattern :=
  [emptyParens, danglingInside, doubledConnective, danglingLead, danglingTrail]

/-- What is to be cleaned between two parts of a text: empty parentheses, a connective with an
opening parenthesis or nothing in front of it, one with a closing parenthesis or nothing behind it,
or two connectives in a row. -/
inductive Clutters (early : List Char) : (left middle right late : List Char) → Prop
  | parens {middle late : List Char} (blank : ∀ c ∈ middle, isSpace c = true) :
      Clutters early ['('] middle [')'] late
  | lead {left middle right late : List Char}
      (opens : (∀ c ∈ early, isSpace c = true) ∨ early.getLast? = some '(')
      (blank : ∀ c ∈ left, isSpace c = true) (isWord : IsConnective middle)
      (spaced : right ≠ [] ∧ ∀ c ∈ right, isSpace c = true) : Clutters early left middle right late
  | trail {left middle right late : List Char}
      (spaced : left ≠ [] ∧ ∀ c ∈ left, isSpace c = true) (isWord : IsConnective middle)
      (blank : ∀ c ∈ right, isSpace c = true)
      (closes : (∀ c ∈ late, isSpace c = true) ∨ late.head? = some ')') :
      Clutters early left middle right late
  | doubled {left middle right late : List Char}
      (begins : (early.getLast?.any isWord != left.head?.any isWord) = true)
      (isFirst : IsConnective left) (spaced : middle ≠ [] ∧ ∀ c ∈ middle, isSpace c = true)
      (isSecond : IsConnective right)
      (ends : (right.getLast?.any isWord != late.head?.any isWord) = true) :
      Clutters early left middle right late

/-- There is something to clean in a text. -/
def Cluttered (text : List Char) : Prop :=
  ∃ early left middle right late, text = early ++ (left ++ (middle ++ (right ++ late))) ∧
    Clutters early left middle right late

/-- Where a step finds something, there is something to clean. -/
theorem cluttered_of_hit (step : pattern ∈ steps)
    (piece : .hit found groups ∈ pattern.pieces none text) : Cluttered text := by
  obtain ⟨early, rest, later, hit, rfl, _, rfl⟩ := exists_hit_of_mem_pieces piece
  rw [Option.or_none] at hit
  have member := (mem_ends_of_hitAt hit).1
  simp only [steps, List.mem_cons, List.not_mem_nil, or_false] at step
  rcases step with rfl | rfl | rfl | rfl | rfl
  · obtain ⟨gap, blank, rfl⟩ := describes_emptyParens.of_mem_pieces piece
    exact ⟨early, ['('], gap, [')'], later.rest, by simp, .parens blank⟩
  · rcases describes_danglingInside.of_mem_pieces piece with
      ⟨gap, word, behind, blank, isWord, spaced, rfl⟩ |
      ⟨gap, word, behind, spaced, isWord, blank, rfl⟩
    · exact ⟨early ++ ['('], gap, word, behind, later.rest, by simp,
        .lead (.inr List.getLast?_concat) blank isWord spaced⟩
    · exact ⟨early, gap, word, behind, ')' :: later.rest, by simp,
        .trail spaced isWord blank (.inr rfl)⟩
  · obtain ⟨begins, first, next, isFirst, whole, step, steps⟩ :=
      mem_ends_doubledConnective.mp member
    obtain ⟨ends, gap, second, spaced, isSecond, behind, own⟩ := mem_ends_another.mp step
    have split := whole.trans (congrArg (first ++ ·) behind)
    obtain ⟨c, letters, rfl⟩ := List.exists_cons_of_ne_nil isFirst.ne_nil
    have last : next.before = second.getLast? := by
      obtain ⟨front, d, rfl⟩ := (List.eq_nil_or_concat second).resolve_left isSecond.ne_nil
      simp [own, Spot.past]
    rw [Spot.atWordEdge, split] at begins
    rw [Spot.atWordEdge, last] at ends
    exact ⟨early, _, gap, second, _, congrArg (early ++ ·) split,
      .doubled begins isFirst spaced isSecond ends⟩
  · obtain ⟨none, gap, word, behind, blank, isWord, spaced, split, _⟩ :=
      mem_ends_danglingLead.mp member
    obtain rfl := List.getLast?_eq_none_iff.mp none
    exact ⟨[], gap, word, behind, _, split, .lead (.inl (by simp)) blank isWord spaced⟩
  · obtain ⟨ended, gap, word, behind, spaced, isWord, blank, split, _⟩ :=
      mem_ends_danglingTrail.mp member
    exact ⟨early, gap, word, behind, [], by rw [List.append_nil, ← split],
      .trail spaced isWord blank (.inl (by simp))⟩

theorem findAll_of_calm (calm : ¬ Cluttered text) (step : pattern ∈ steps) :
    pattern.findAll text = [] := by
  refine List.eq_nil_iff_forall_not_mem.mpr fun found member => ?_
  obtain ⟨groups, piece⟩ := mem_findAll.mp member
  exact calm (cluttered_of_hit step piece)

theorem clean_of_calm (calm : ¬ Cluttered text) : clean text = trimChars (collapse text) := by
  have once : cleanOnce text = text := by
    have kept {pattern : Pattern} {change} (step : pattern ∈ steps) :
        pattern.replaceAll change text = text := replaceAll_of_findAll (findAll_of_calm calm step)
    rw [cleanOnce, kept (by simp [steps]), kept (by simp [steps]), kept (by simp [steps]),
      kept (by simp [steps]), kept (by simp [steps])]
  rw [clean_eq, cleanAll, once, if_neg (Nat.lt_irrefl _)]

/-- What is cleaned away has a parenthesis, or a connective next to white space. -/
theorem Cluttered.exists_border (cluttered : Cluttered text) :
    '(' ∈ text ∨ ∃ gap word, (gap ≠ [] ∧ ∀ c ∈ gap, isSpace c = true) ∧ IsConnective word ∧
      (gap ++ word <:+: text ∨ word ++ gap <:+: text) := by
  obtain ⟨early, left, middle, right, late, rfl, clutters⟩ := cluttered
  cases clutters with
  | parens => exact .inl (by simp)
  | lead opens blank isWord spaced =>
    exact .inr ⟨right, middle, spaced, isWord, .inr ⟨early ++ left, late, by simp⟩⟩
  | trail spaced isWord =>
    exact .inr ⟨left, middle, spaced, isWord, .inl ⟨early, right ++ late, by simp⟩⟩
  | doubled begins isFirst spaced =>
    exact .inr ⟨middle, left, spaced, isFirst, .inr ⟨early, right ++ late, by simp⟩⟩

theorem clean_of_solid (solid : ∀ c ∈ text, isBlank c = false ∧ c ≠ '(') : clean text = text := by
  have visible (c : Char) (own : c ∈ text) : ¬ isSpace c = true := fun space => by
    simpa [isBlank, space] using (solid c own).1
  have calm : ¬ Cluttered text := fun cluttered => by
    rcases cluttered.exists_border with opening | ⟨gap, word, ⟨some, blank⟩, _, inside⟩
    · exact (solid _ opening).2 rfl
    · obtain ⟨c, own⟩ := List.exists_mem_of_ne_nil gap some
      refine visible c ?_ (blank c own)
      rcases inside with inside | inside <;> exact inside.subset (by simp [own])
  have blanks : spaces1.findAll text = [] := List.eq_nil_iff_forall_not_mem.mpr fun gap member => by
    obtain ⟨groups, piece⟩ := mem_findAll.mp member
    obtain ⟨some, blank⟩ := describes_spaces1.of_mem_pieces piece
    obtain ⟨c, own⟩ := List.exists_mem_of_ne_nil gap some
    exact visible c (mem_of_mem_pieces piece own) (blank c own)
  rw [clean_of_calm calm, collapse, replaceAll_of_findAll blanks]
  exact trimBy_of_forall fun c member => (solid c member).1

/-- A connective ends with a d or an r. -/
theorem IsConnective.exists_getLast {word : List Char} (connective : IsConnective word) :
    ∃ c, word.getLast? = some c ∧ foldKey c ∈ ['d', 'r'] := by
  have last : (word.map foldKey).getLast? = some 'd' ∨ (word.map foldKey).getLast? = some 'r' := by
    rcases connective with same | same
    · exact .inl (by rw [same]; rfl)
    · exact .inr (by rw [same]; rfl)
  rw [List.getLast?_map, Option.map_eq_some_iff, Option.map_eq_some_iff] at last
  rcases last with ⟨c, ends, folded⟩ | ⟨c, ends, folded⟩
  · exact ⟨c, ends, by simp [folded]⟩
  · exact ⟨c, ends, by simp [folded]⟩

/-- A blank at the end is all that is cleaned away from a text without white space and opening
parentheses, if the text does not end like a connective. -/
theorem clean_of_trailing {front : List Char} (solid : ∀ c ∈ front, isBlank c = false ∧ c ≠ '(')
    (last : ∀ c ∈ front.getLast?, foldKey c ∉ ['d', 'r']) : clean (front ++ [' ']) = front := by
  -- White space in the text is its last character.
  have place {early late : List Char} {c : Char} (split : early ++ c :: late = front ++ [' '])
      (space : isSpace c = true) : late = [] ∧ early = front := by
    rcases List.eq_nil_or_concat late with rfl | ⟨more, d, rfl⟩
    · exact ⟨rfl, (List.append_inj' split rfl).1⟩
    · rw [List.concat_eq_append, ← List.cons_append, ← List.append_assoc] at split
      have own : c ∈ front := by simp [← (List.append_inj' split rfl).1]
      simpa [isBlank, space] using (solid c own).1
  have calm : ¬ Cluttered (front ++ [' ']) := fun cluttered => by
    rcases cluttered.exists_border with opening | ⟨gap, word, ⟨some, blank⟩, isWord, inside⟩
    · rcases List.mem_append.mp opening with own | own
      · exact (solid _ own).2 rfl
      · exact absurd (List.mem_singleton.mp own) (by decide)
    · obtain ⟨c, others, rfl⟩ := List.exists_cons_of_ne_nil some
      have space := blank c List.mem_cons_self
      rcases inside with ⟨lead, trail, whole⟩ | ⟨lead, trail, whole⟩
      · have split : lead ++ c :: (others ++ word ++ trail) = front ++ [' '] := by simpa using whole
        exact isWord.ne_nil (by simpa using (place split space).1 : others = [] ∧ _ ∧ _).2.1
      · have split : (lead ++ word) ++ c :: (others ++ trail) = front ++ [' '] := by
          simpa using whole
        obtain ⟨d, own, folded⟩ := isWord.exists_getLast
        refine last d ?_ folded
        rw [← (place split space).2, List.getLast?_append, own]
        rfl
  have single : collapse (front ++ [' ']) = front ++ [' '] := by
    refine collapse_eq_self_iff.mpr fun gap member => ?_
    obtain ⟨groups, piece⟩ := mem_findAll.mp member
    obtain ⟨some, blank⟩ := describes_spaces1.of_mem_pieces piece
    obtain ⟨c, others, rfl⟩ := List.exists_cons_of_ne_nil some
    obtain ⟨early, rest, later, _, _, _, whole⟩ := exists_hit_of_mem_pieces piece
    obtain ⟨ended, rfl⟩ := place whole.symm (blank c List.mem_cons_self)
    obtain rfl := (List.append_eq_nil_iff.mp ended).1
    rw [List.cons.inj (List.append_cancel_left whole) |>.1]
  rw [clean_of_calm calm, single, trimChars]
  have trimmed : trimBy isBlank ([] ++ front ++ [' ']) = trimBy isBlank front :=
    trimBy_between front (List.forall_mem_nil _) (List.forall_mem_singleton.mpr rfl)
  exact trimmed.trans (trimBy_of_forall fun c own => (solid c own).1)

theorem mem_collapse {c : Char} (member : c ∈ collapse (cleanAll text)) : c ∈ text ∨ c = ' ' := by
  have once (text : List Char) : ∀ c ∈ cleanOnce text, c ∈ text ∨ c = ' ' := by
    have dropped {pattern : Pattern} {inner : List Char} (known : ∀ c ∈ inner, c ∈ text ∨ c = ' ') :
        ∀ c ∈ pattern.replaceAll (fun _ _ => []) inner, c ∈ text ∨ c = ' ' :=
      forall_mem_replaceAll known (by simp)
    have parens : ∀ c ∈ dropParens text, c ∈ text ∨ c = ' ' :=
      forall_mem_replaceAll (fun c own => .inl own) (by simp)
    have inside : ∀ c ∈ dropInside (dropParens text), c ∈ text ∨ c = ' ' := by
      refine forall_mem_replaceAll parens fun found groups listed c own => parens c ?_
      refine mem_of_mem_pieces listed ?_
      rcases describes_danglingInside.of_mem_pieces listed with
        ⟨gap, word, behind, _, _, _, rfl⟩ | ⟨gap, word, behind, _, _, _, rfl⟩
      · simp_all
      · split at own
        · next opening =>
          obtain rfl := List.mem_singleton.mp own
          exact List.contains_iff_mem.mp opening
        · simp_all
    have doubled : ∀ c ∈ tidy text, c ∈ text ∨ c = ' ' := by
      refine forall_mem_replaceAll inside fun found groups listed c own => inside c ?_
      refine mem_of_mem_pieces listed ?_
      obtain ⟨first, d, more, kept, _, _, rfl⟩ := shrinks_doubledConnective listed
      rw [kept] at own
      exact List.mem_append_left _ own
    exact dropped (dropped doubled)
  have all (text : List Char) : ∀ c ∈ cleanAll text, c ∈ text ∨ c = ' ' := by
    fun_induction cleanAll text with
    | case1 text shorter ih =>
      intro c own
      exact (ih c own).elim (once text c) .inr
    | case2 text => exact once text
  exact forall_mem_replaceAll (all text) (by simp) c member

theorem mem_clean {c : Char} (member : c ∈ clean text) : c ∈ text ∨ c = ' ' := by
  obtain ⟨lead, trail, _, _, split⟩ := exists_trimBy isBlank (collapse (cleanAll text))
  apply mem_collapse
  rw [split]
  exact List.mem_append_left _ (List.mem_append_right _ member)

end Detection.Selector

import Detection.LogSource
import Detection.Proofs.PatternMatching

/-!
# What selectors cut out of a query

A selector takes its matches out of a query one by one, and each of them begins outside the
quoted texts of what is left of the query by then. `Quoting` says where a place stands to the
quotes in front of it. `removeAll` lists the pieces that the selectors of a query take out,
beside what they leave.
-/
namespace Detection.Selector

open Text Pattern

variable {text : List Char} {found : Selection} {selector : Selector}

/-- Where a place stands to the quotes in front of it. In double quotes a backslash may
protect the next character. -/
inductive Quoting
  | outside
  | double (protect : Bool)
  | single
  deriving DecidableEq

namespace Quoting

def isInside : Quoting → Bool
  | outside => false
  | double _ | single => true

def next : Quoting → Char → Quoting
  | outside, c => if c == '"' then double false else if c == '\'' then single else outside
  | double true, _ => double false
  | double false, c => if c == '\\' then double true else if c == '"' then outside else double false
  | single, c => if c == '\'' then outside else single

def after (quoting : Quoting) (text : List Char) : Quoting :=
  text.foldl next quoting

@[simp] theorem after_cons (quoting : Quoting) (c : Char) (text : List Char) :
    quoting.after (c :: text) = (quoting.next c).after text := rfl

@[simp] theorem after_append (quoting : Quoting) (text more : List Char) :
    quoting.after (text ++ more) = (quoting.after text).after more :=
  List.foldl_append

theorem after_unquoted (unquoted : ∀ c ∈ text, c ≠ '"' ∧ c ≠ '\'') :
    outside.after text = outside := by
  induction text with
  | nil => rfl
  | cons c text ih =>
    obtain ⟨⟨double, single⟩, others⟩ := List.forall_mem_cons.mp unquoted
    have still : outside.next c = outside := by simp [next, double, single]
    rw [after_cons, still, ih others]

/-- For each character of a text, whether it lies in a quoted text. -/
def flags : Quoting → List Char → List Bool
  | outside => quotedFlags none false
  | double protect => quotedFlags (some '"') protect
  | single => quotedFlags (some '\'') false

/-- A character lies in a quoted text if the place in front of it does. -/
theorem flags_cons (quoting : Quoting) (c : Char) (text : List Char) :
    quoting.flags (c :: text) = quoting.isInside :: (quoting.next c).flags text := by
  cases quoting with
  | outside =>
    by_cases opens : c = '"'
    · subst opens
      rfl
    · by_cases also : c = '\'' <;> simp [flags, quotedFlags, next, isInside, opens, also]
  | double protect =>
    cases protect with
    | true => rfl
    | false =>
      by_cases protects : c = '\\'
      · subst protects
        rfl
      · by_cases closes : c = '"' <;> simp [flags, quotedFlags, next, isInside, protects, closes]
  | single => by_cases closes : c = '\'' <;> simp [flags, quotedFlags, next, isInside, closes]

theorem drop_flags (quoting : Quoting) (text more : List Char) :
    (quoting.flags (text ++ more)).drop text.length = (quoting.after text).flags more := by
  induction text generalizing quoting with
  | nil => rfl
  | cons c text ih =>
    rw [List.cons_append, flags_cons, List.length_cons, List.drop_succ_cons, ih]
    rfl

end Quoting

/-- A match of a selector by equality: a name at the border of a word, the sign and a value,
with white space around the sign. -/
theorem mem_ends_equality {key name : String} {value : Pattern} {spot later : Spot}
    (member : later ∈ (equality key (.anyCase name) value).pattern.ends spot) :
    spot.atWordEdge = true ∧ ∃ word gap behind start ended,
      word.map foldKey = name.toList.map foldKey ∧ (∀ c ∈ gap, isSpace c = true) ∧
      (∀ c ∈ behind, isSpace c = true) ∧ ended ∈ value.ends start ∧ later.rest = ended.rest ∧
      spot.rest = word ++ (gap ++ '=' :: (behind ++ start.rest)) := by
  have spaced : spaces.Describes _ := describes_many isSpace
  simp only [equality, mem_seq_wordEdge, (describes_anyCase name).mem_seq, spaced.mem_seq,
    (describes_char '=').mem_seq] at member
  obtain ⟨edge, word, same, text, gap, blank, second, _, rfl, third, behind, blankAgain, fourth,
    member⟩ := member
  obtain ⟨ended, valued, rfl⟩ := List.mem_map.mp member
  refine ⟨edge, word, gap, behind, _, ended, same, blank, blankAgain, valued, rfl, ?_⟩
  rw [text, second, third, fourth]
  rfl

/-- The first match outside quotes is a match at a place outside quotes. -/
theorem firstUnquoted_spec {pattern : Pattern} (front : Option Char) (text behind : List Char)
    (quoting : Quoting)
    (first : firstUnquoted behind (quoting.flags text) (pattern.pieces front text) = some found) :
    ∃ before matched later, found.before = behind.reverse ++ before ∧
      text = before ++ (matched ++ found.after) ∧ quoting.after before = .outside ∧
      pattern.hitAt? (before.getLast?.or front) (matched ++ found.after) = some later ∧
      later.rest = found.after ∧ later.groups = found.groups := by
  induction front, text using pieces_induction pattern generalizing behind quoting with
  | nil => simp [pieces_nil, firstUnquoted] at first
  | plain front c rest none ih =>
    rw [pieces_plain none, firstUnquoted, Quoting.flags_cons, List.tail_cons] at first
    obtain ⟨before, matched, later, read, split, outside, hit, ends⟩ :=
      ih _ _ first
    refine ⟨c :: before, matched, later, by simp [read], by simp [split], outside, ?_, ends⟩
    rwa [getLast_cons_or]
  | hit front text later hit ih =>
    obtain ⟨member, shorter⟩ := mem_ends_of_hitAt hit
    obtain ⟨taken, leads, _⟩ := pattern.leads_of_mem_ends member
    have whole : text = taken ++ later.rest := leads.rest
    rw [pieces_hit hit, firstUnquoted, leads.taken] at first
    split at first
    · rw [whole, Quoting.drop_flags] at first
      obtain ⟨before, matched, last, read, split, outside, also, ends⟩ :=
        ih _ _ first
      refine ⟨taken ++ before, matched, last, by simp [read], by rw [whole, split]; simp,
        by rw [Quoting.after_append, outside], ?_, ends⟩
      rwa [leads.before, ← Option.or_assoc, ← List.getLast?_append] at also
    · next unquoted =>
      cases first
      have rest : joinPieces (pattern.pieces later.before later.rest) = later.rest :=
        join_pieces pattern later.before later.rest
      refine ⟨[], taken, later, by simp, ?_, ?_, ?_, rest.symm, rfl⟩
      · simpa [rest] using whole
      · obtain ⟨c, tail, written⟩ : ∃ c tail, text = c :: tail :=
          List.exists_cons_of_ne_nil (by rintro rfl; simp at shorter)
        rw [written, Quoting.flags_cons] at unquoted
        cases quoting with
        | outside => rfl
        | double | single => simp [Quoting.isInside] at unquoted
      · simpa [rest, whole] using hit

/-- What a selector finds is a match of its pattern outside quotes. -/
theorem find?_spec (first : selector.find? text = some found) :
    ∃ matched later, text = found.before ++ (matched ++ found.after) ∧
      Quoting.outside.after found.before = .outside ∧
      selector.pattern.hitAt? found.before.getLast? (matched ++ found.after) = some later ∧
      later.rest = found.after ∧ later.groups = found.groups := by
  obtain ⟨before, matched, later, read, split, outside, hit, ends⟩ :=
    firstUnquoted_spec none text [] .outside first
  obtain rfl : found.before = before := read
  rw [Option.or_none] at hit
  exact ⟨matched, later, split, outside, hit, ends⟩

/-- The first hit in a text is found, if it is outside quotes. -/
theorem find?_of_hit {before rest : List Char} {later : Spot}
    (hit : selector.pattern.hitAt? before.getLast? rest = some later)
    (outside : Quoting.outside.after before = .outside)
    (none : ∀ early c late, before = early ++ c :: late →
      selector.pattern.hitAt? early.getLast? (c :: (late ++ rest)) = none) :
    selector.find? (before ++ rest) = some ⟨before, later.groups, later.rest⟩ := by
  have walked (read more : List Char) (quoting : Quoting) (pieces : List Piece) :
      firstUnquoted read (quoting.flags (more ++ rest)) (more.map .plain ++ pieces) =
        firstUnquoted (more.reverse ++ read) ((quoting.after more).flags rest) pieces := by
    induction more generalizing read quoting with
    | nil => rfl
    | cons c more ih =>
      rw [List.cons_append, Quoting.flags_cons, List.map_cons, List.cons_append, firstUnquoted,
        List.tail_cons, ih]
      simp
  have cut := @pieces_inert selector.pattern before .none rest (by simpa using none)
  rw [Option.or_none, pieces_hit hit] at cut
  have start : quotedFlags .none false (before ++ rest) =
      Quoting.outside.flags (before ++ rest) := rfl
  rw [find?, cut, start, walked, outside, firstUnquoted]
  obtain ⟨_, shorter⟩ := mem_ends_of_hitAt hit
  obtain ⟨c, tail, rfl⟩ : ∃ c tail, rest = c :: tail :=
    List.exists_cons_of_ne_nil (by rintro rfl; simp at shorter)
  have unquoted : ((Quoting.outside.flags (c :: tail)).head? == some true) = false := by
    rw [Quoting.flags_cons]
    rfl
  have joined : joinPieces (selector.pattern.pieces later.before later.rest) = later.rest :=
    join_pieces selector.pattern later.before later.rest
  simp [unquoted, joined]

/-- The piece of a text that a selection takes out. -/
def Selection.matched (found : Selection) (text : List Char) : List Char :=
  (text.drop found.before.length).take
    (text.length - found.before.length - found.after.length)

/-- The pieces that a selector takes out of a text, and the text that is left. -/
def remove (selector : Selector) (text : List Char) : List (List Char) × List Char :=
  match selector.find? text with
  | none => ([], text)
  | some found =>
    if found.rest.length < text.length then
      (found.matched text :: (selector.remove found.rest).1, (selector.remove found.rest).2)
    else ([found.matched text], found.rest)
termination_by text.length

/-- The hints do not matter for what is left. -/
theorem takeAll_snd (selector : Selector) (hints : Hints) (text : List Char) :
    (selector.takeAll hints text).2 = (selector.remove text).2 := by
  fun_induction takeAll selector hints text with
  | case1 hints text none => rw [remove, none]
  | case2 hints text found first added shorter ih =>
    rw [remove, first]
    simpa [shorter] using ih
  | case3 hints text found first added longer =>
    rw [remove, first]
    simp [longer]

/-- The pieces that several selectors take out of a text one after the other, and the text
that is left. -/
def removeAll : List Selector → List Char → List (List Char) × List Char
  | [], text => ([], text)
  | selector :: others, text =>
    ((selector.remove text).1 ++ (removeAll others (selector.remove text).2).1,
      (removeAll others (selector.remove text).2).2)

/-- The query that is left is what the selectors leave, cleaned. -/
theorem extract_snd (selectors : List Selector) (query : String) :
    (extract selectors query).2 = String.ofList (clean (removeAll selectors query.toList).2) := by
  have folded (hints : Hints) (text : List Char) :
      (selectors.foldl (fun state selector => selector.takeAll state.1 state.2)
        (hints, text)).2 = (removeAll selectors text).2 := by
    induction selectors generalizing hints text with
    | nil => rfl
    | cons selector others ih =>
      rw [List.foldl_cons, removeAll]
      have rest := ih (selector.takeAll hints text).1 (selector.remove text).2
      rwa [← takeAll_snd selector hints text] at rest ⊢
  exact congrArg (fun text => String.ofList (clean text)) (folded [] query.toList)

/-- Selectors that are not found change nothing. -/
theorem foldl_takeAll_of_none {selectors : List Selector}
    (none : ∀ selector ∈ selectors, selector.find? text = none) (hints : Hints) :
    selectors.foldl (fun state selector => selector.takeAll state.1 state.2) (hints, text) =
      (hints, text) := by
  induction selectors with
  | nil => rfl
  | cons selector others ih =>
    obtain ⟨own, rest⟩ := List.forall_mem_cons.mp none
    have same : selector.takeAll hints text = (hints, text) := by rw [takeAll, own]
    rw [List.foldl_cons, same]
    exact ih rest

/-- Where no selector is found, the query is only cleaned. -/
theorem extract_of_find_none {selectors : List Selector} {query : String}
    (none : ∀ selector ∈ selectors, selector.find? query.toList = none) :
    extract selectors query = ([], String.ofList (clean query.toList)) :=
  congrArg (fun state => (state.1, String.ofList (clean state.2)))
    (foldl_takeAll_of_none none [])

/-- Where one selector is found, and none in what it leaves, its values are the hints. -/
theorem extract_of_find_once {early late : List Selector} {query : String}
    (before : ∀ other ∈ early, other.find? query.toList = none)
    (first : selector.find? query.toList = some found)
    (behind : ∀ other ∈ selector :: late, other.find? found.rest = none) {hints : Hints}
    (collected : (selector.values found.groups).foldl
      (fun (hints : Hints) value => hints.add selector.key value) [] = hints) :
    extract (early ++ selector :: late) query = (hints, String.ofList (clean found.rest)) := by
  obtain ⟨own, others⟩ := List.forall_mem_cons.mp behind
  have still : selector.takeAll hints found.rest = (hints, found.rest) := by rw [takeAll, own]
  have taken : selector.takeAll [] query.toList = (hints, found.rest) := by
    rw [takeAll, first]
    dsimp only
    rw [collected, still]
    split <;> rfl
  have folded : (early ++ selector :: late).foldl
      (fun state selector => selector.takeAll state.1 state.2) (([] : Hints), query.toList) =
        (hints, found.rest) := by
    rw [List.foldl_append, foldl_takeAll_of_none before, List.foldl_cons, taken,
      foldl_takeAll_of_none others]
  exact congrArg (fun state => (state.1, String.ofList (clean state.2))) folded

/-- What is left where a selector is found once. -/
theorem remove_snd_of_find (first : selector.find? text = some found)
    (last : selector.find? found.rest = none) : (selector.remove text).2 = found.rest := by
  have rest : selector.remove found.rest = ([], found.rest) := by rw [remove, last]
  rw [remove, first]
  simp only [rest]
  split <;> rfl

end Detection.Selector

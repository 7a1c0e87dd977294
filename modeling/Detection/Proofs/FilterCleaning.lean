import Detection.Proofs.FilterLayout
import Mathlib.Data.List.Infix

/-!
# Cleaning a filter that is laid out

Each step of cleaning takes whole parts out of a layout, puts others in their place, and leaves
a layout behind. What it takes are connectives, white space and parentheses with nothing inside,
so that the walk over the parts does not notice.
-/
namespace Detection.Spl

open Text Pattern Selector

variable {c : Char} {part : Part} {parts : List Part} {previous : Option Part}

section Inversion

variable {tail : List Char}

/-- The first character of a word is no white space and no parenthesis. -/
theorem Part.exists_head (isWord : part.isWord = true) :
    ∃ c letters, part.text = c :: letters ∧ isBlank c = false ∧ c ∉ ['(', ')'] := by
  cases part with
  | gap | opening | closing => contradiction
  | joiner connective =>
    cases connective <;> exact ⟨_, _, rfl, by decide, by decide⟩
  | negation => exact ⟨_, _, rfl, by decide, by decide⟩
  | clause content =>
    rw [Part.text, Clause.text]
    cases written : content.lead with
    | nil =>
      have nonempty := content.nonempty
      rw [written] at nonempty
      cases quoted : content.body? with
      | none => simp [quoted, quotedText] at nonempty
      | some body => exact ⟨'"', body ++ ['"'], rfl, by decide, by decide⟩
    | cons c letters =>
      obtain ⟨visible, special⟩ := content.isLead.solid c (by simp [written])
      refine ⟨c, letters ++ quotedText content.body?, rfl, visible, fun own => special ?_⟩
      simp_all

/-- A parenthesis at the beginning is a part. -/
theorem exists_of_paren {paren : Part} (isParen : paren = .opening ∨ paren = .closing)
    (written : text parts = paren.text ++ tail) :
    ∃ rest, parts = paren :: rest ∧ text rest = tail := by
  obtain ⟨mark, same, special⟩ : ∃ mark, paren.text = [mark] ∧ mark ∈ ['(', ')'] := by
    rcases isParen with rfl | rfl <;> exact ⟨_, rfl, by decide⟩
  rw [same] at written
  cases parts with
  | nil => simp at written
  | cons part rest =>
    have first (isWord : part.isWord = true) : False := by
      obtain ⟨c, letters, begins, _, other⟩ := part.exists_head isWord
      rw [text_cons, begins] at written
      exact other ((List.cons.inj written).1 ▸ special)
    cases part with
    | gap c blank =>
      obtain rfl : c = mark := (List.cons.inj written).1
      rcases List.mem_pair.mp special with rfl | rfl <;> contradiction
    | opening =>
      obtain ⟨rfl, behind⟩ := List.cons.inj written
      rcases isParen with rfl | rfl
      · exact ⟨rest, rfl, behind⟩
      · contradiction
    | closing =>
      obtain ⟨rfl, behind⟩ := List.cons.inj written
      rcases isParen with rfl | rfl
      · contradiction
      · exact ⟨rest, rfl, behind⟩
    | joiner | negation | clause => exact (first rfl).elim

/-- White space at the beginning is made of parts that are white space. -/
theorem exists_of_blank {gap : List Char} (blank : ∀ c ∈ gap, isBlank c = true)
    (written : text parts = gap ++ tail) :
    ∃ gaps rest, (∀ part ∈ gaps, part.isGap = true) ∧ parts = gaps ++ rest ∧ text gaps = gap ∧
      text rest = tail := by
  induction gap generalizing parts with
  | nil => exact ⟨[], parts, by simp, rfl, rfl, written⟩
  | cons c gap ih =>
    obtain ⟨own, others⟩ := List.forall_mem_cons.mp blank
    cases parts with
    | nil => simp at written
    | cons part rest =>
      have first (isWord : part.isWord = true) : False := by
        obtain ⟨d, letters, same, visible, _⟩ := part.exists_head isWord
        rw [text_cons, same] at written
        obtain rfl : d = c := (List.cons.inj written).1
        simp [own] at visible
      cases part with
      | gap d isGap =>
        obtain ⟨rfl, behind⟩ := List.cons.inj written
        obtain ⟨gaps, rest, blanks, rfl, same, left⟩ := ih others behind
        exact ⟨.gap d isGap :: gaps, rest, List.forall_mem_cons.mpr ⟨rfl, blanks⟩, rfl,
          by rw [text_cons, same]; rfl, left⟩
      | opening =>
        obtain rfl : '(' = c := (List.cons.inj written).1
        exact absurd own (by decide)
      | closing =>
        obtain rfl : ')' = c := (List.cons.inj written).1
        exact absurd own (by decide)
      | joiner | negation | clause => exact (first rfl).elim

/-- The characters that a word ends in front of. -/
def EndsWord (tail : List Char) : Prop :=
  ∀ c ∈ tail.head?, isSpace c = true ∨ c ∈ ['(', ')', '"']

theorem endsWord_of_spaced (isWord : part.isWord = true) (spaced : Spaced (some part) parts) :
    EndsWord (text parts) := by
  intro c first
  cases parts with
  | nil => simp at first
  | cons next rest =>
    have other := spaced.apart isWord next rfl
    cases next with
    | gap d blank =>
      obtain rfl : d = c := Option.some.inj first
      exact .inl (by simp [isSpace, blank])
    | opening =>
      obtain rfl : '(' = c := Option.some.inj first
      exact .inr (by decide)
    | closing =>
      obtain rfl : ')' = c := Option.some.inj first
      exact .inr (by decide)
    | joiner | negation | clause => contradiction

/-- A quoted text behind a word ends it. -/
theorem endsWord_of_clause {content : Clause} (spaced : Spaced (some (.clause content)) parts) :
    EndsWord (quotedText content.body? ++ text parts) := by
  cases body : content.body? with
  | none => exact endsWord_of_spaced rfl spaced
  | some body =>
    intro c first
    obtain rfl : '"' = c := Option.some.inj first
    exact .inr (by decide)

/-- White space or a closing parenthesis comes first, if anything does. -/
def Ended (tail : List Char) : Prop :=
  tail.head?.all (fun c => isSpace c || c == ')') = true

/-- The word of a clause does not begin with a connective that ends there. -/
theorem IsLead.not_connective {lead behind word : List Char} (isLead : IsLead lead)
    (ends : EndsWord behind) (connective : IsConnective word)
    (written : lead ++ behind = word ++ tail)
    (ended : Ended tail ∨ Spot.atWordEdge ⟨word.getLast?, tail, []⟩ = true) : False := by
  rcases List.append_eq_append_iff.mp written with ⟨more, rfl, rest⟩ | ⟨more, rfl, rest⟩
  · cases more with
    | nil => exact isLead.noConnective (by simpa using connective)
    | cons c more =>
      -- The connective goes on behind the word.
      obtain ⟨visible, special⟩ := visible_of_connective connective (c := c) (by simp)
      rcases ends c (by simp [rest]) with space | mark
      · simp [visible] at space
      · exact special mark
  · cases more with
    | nil => exact isLead.noConnective (by simpa using connective)
    | cons c more =>
      -- The word goes on behind the connective.
      obtain ⟨visible, special⟩ := isLead.solid c (by simp)
      subst rest
      rcases ended with stopped | edge
      · simp only [isBlank, Bool.or_eq_false_iff] at visible
        simp_all [Ended]
      · have noEdge := isLead.starts word.length (by simp)
        rw [List.take_left, List.drop_left] at noEdge
        exact absurd edge (by simpa [Spot.atWordEdge] using noEdge connective)

/-- A connective at the beginning is a part, if a word ends behind it. -/
theorem exists_of_connective (spaced : Spaced previous parts) {word : List Char}
    (connective : IsConnective word) (written : text parts = word ++ tail)
    (ended : Ended tail ∨ Spot.atWordEdge ⟨word.getLast?, tail, []⟩ = true) :
    ∃ joined rest, parts = .joiner joined :: rest ∧ joinerText joined = word ∧
      text rest = tail := by
  obtain ⟨c, letters, rfl⟩ := List.exists_cons_of_ne_nil connective.ne_nil
  have letter : foldKey c = 'a' ∨ foldKey c = 'o' := by
    rcases connective with same | same
    · exact .inl (List.cons.inj same).1
    · exact .inr (List.cons.inj same).1
  obtain ⟨visible, special⟩ := visible_of_connective connective List.mem_cons_self
  cases parts with
  | nil => simp at written
  | cons part rest =>
    cases part with
    | gap d blank =>
      obtain rfl : d = c := (List.cons.inj written).1
      simp [isSpace, blank] at visible
    | opening =>
      obtain rfl : '(' = c := (List.cons.inj written).1
      exact absurd (by decide) special
    | closing =>
      obtain rfl : ')' = c := (List.cons.inj written).1
      exact absurd (by decide) special
    | joiner joined =>
      have length : (joinerText joined).length = (c :: letters).length := by
        cases joined with
        | and =>
          obtain rfl : 'A' = c := (List.cons.inj written).1
          rcases connective with same | same
          · simpa [joinerText] using (congrArg List.length same).symm
          · exact absurd (List.cons.inj same).1 (by decide)
        | or =>
          obtain rfl : 'O' = c := (List.cons.inj written).1
          rcases connective with same | same
          · exact absurd (List.cons.inj same).1 (by decide)
          · simpa [joinerText] using (congrArg List.length same).symm
      obtain ⟨same, behind⟩ := List.append_inj written length
      exact ⟨joined, rest, rfl, same, behind⟩
    | negation =>
      obtain rfl : 'N' = c := (List.cons.inj written).1
      exact absurd letter (by decide)
    | clause content =>
      have whole : content.lead ++ (quotedText content.body? ++ text rest) =
          (c :: letters) ++ tail := by
        rw [← written, text_cons, Part.text, Clause.text, List.append_assoc]
      exact (content.isLead.not_connective (endsWord_of_clause spaced.2) connective whole
        ended).elim

theorem blank_of_space {gap : List Char} (spaces : ∀ c ∈ gap, isSpace c = true) :
    ∀ c ∈ gap, isBlank c = true := by
  intro c member
  simp [isBlank, spaces c member]

theorem silent_of_gaps {gaps : List Part} (blanks : ∀ part ∈ gaps, part.isGap = true) :
    ∀ part ∈ gaps, part.isSilent = true := by
  intro part member
  have own := blanks part member
  cases part <;> first | rfl | contradiction

/-- A connective with white space around it is made of silent parts. -/
theorem exists_of_dangling (spaced : Spaced previous parts) {gap word behind : List Char}
    (spaces : ∀ c ∈ gap, isSpace c = true) (connective : IsConnective word)
    (blanks : ∀ c ∈ behind, isSpace c = true)
    (written : text parts = gap ++ (word ++ (behind ++ tail)))
    (ended : behind = [] → Ended tail) :
    ∃ silent rest, (∀ part ∈ silent, part.isSilent = true) ∧ parts = silent ++ rest ∧
      text silent = gap ++ (word ++ behind) ∧ text rest = tail := by
  obtain ⟨lead, inner, leading, rfl, leadText, worded⟩ :=
    exists_of_blank (blank_of_space spaces) written
  have ends : Ended (behind ++ tail) := by
    cases behind with
    | nil => exact ended rfl
    | cons c => simp [Ended, blanks c List.mem_cons_self]
  obtain ⟨joined, after, rfl, joinedText, spread⟩ :=
    exists_of_connective (Spaced.append_iff.mp spaced).2 connective worded (.inl ends)
  obtain ⟨trail, rest, trailing, rfl, trailText, left⟩ :=
    exists_of_blank (blank_of_space blanks) spread
  refine ⟨lead ++ .joiner joined :: trail, rest, ?_, by simp, ?_, left⟩
  · simp only [List.forall_mem_append, List.forall_mem_cons]
    exact ⟨silent_of_gaps leading, rfl, silent_of_gaps trailing⟩
  · rw [text_append, text_cons, leadText, trailText, Part.text, joinedText]

/-- Such a stretch has no parentheses and no quotes. -/
theorem not_mem_dangling {gap word behind : List Char} (spaces : ∀ c ∈ gap, isSpace c = true)
    (connective : IsConnective word) (blanks : ∀ c ∈ behind, isSpace c = true)
    (special : c ∈ ['(', ')', '"']) : c ∉ gap ++ (word ++ behind) := by
  have visible : isSpace c = false := by
    simp only [List.mem_cons, List.not_mem_nil, or_false] at special
    rcases special with rfl | rfl | rfl <;> rfl
  simp only [List.mem_append, not_or]
  exact ⟨fun own => by simp [spaces c own] at visible,
    fun own => (visible_of_connective connective own).2 special,
    fun own => by simp [blanks c own] at visible⟩

end Inversion

def Part.word : Part → List Char
  | joiner connective => joinerText connective
  | negation => negationText
  | clause content => content.lead
  | gap .. | opening | closing => []

/-- A replacement exchanges parts of a filter for others. Quoted texts stay as they are, no
match begins inside a word, and a match at the beginning of a part takes whole parts. -/
structure Exchanges (pattern : Pattern)
    (change : List Char → List (String × List Char) → List Char) : Prop where
  stops : pattern.stopsAt '"' = true
  unanchored : pattern.unanchored = true
  body : ∀ body, Selector.Undisturbed body → pattern.replaceAll change body = body
  inside : ∀ (part : Part) (early : List Char) (c : Char) (late tail : List Char),
    part.word = early ++ c :: late → early ≠ [] → EndsWord tail →
      pattern.hitAt? early.getLast? (c :: (late ++ tail)) = none
  here : ∀ previous parts before later, Spaced previous parts →
    pattern.hitAt? before (text parts) = some later →
      ∃ taken rest new, parts = taken ++ rest ∧ later.rest = text rest ∧
        change (text taken) later.groups = text new ∧ Keeps taken new ∧
        ∀ others, Spaced (taken.getLast?.or previous) others → Spaced previous (new ++ others)

namespace Exchanges

variable {pattern : Pattern} {change : List Char → List (String × List Char) → List Char}
  (exchanges : Exchanges pattern change)

include exchanges

/-- A word in which no match begins stays. -/
theorem edit_word {before : Option Char} {tail : List Char} (ends : EndsWord tail)
    (none : pattern.hitAt? before (part.word ++ tail) = none) :
    (pattern.pieces before (part.word ++ tail)).flatMap (Piece.edit change) =
      part.word ++ (pattern.pieces (part.word.getLast?.or before) tail).flatMap
        (Piece.edit change) := by
  have inert := @pieces_inert pattern part.word before tail fun early c late split => by
    by_cases first : early = []
    · subst first
      rw [split] at none
      simpa using none
    · obtain ⟨d, last⟩ := List.getLast?_isSome.mpr first |> Option.isSome_iff_exists.mp
      rw [last, Option.some_or, ← last]
      exact exchanges.inside part early c late tail split first ends
  have plain (word : List Char) : (word.map Piece.plain).flatMap (Piece.edit change) = word := by
    induction word with
    | nil => rfl
    | cons c word ih => simp [Piece.edit, ih]
  rw [inert, List.flatMap_append, plain]

/-- A quoted text stays. -/
theorem edit_quoted {body? : Option (List Char)} (isBody : ∀ body ∈ body?, IsBody body)
    (before : Option Char) (tail : List Char) :
    ∃ last, (pattern.pieces before (quotedText body? ++ tail)).flatMap (Piece.edit change) =
      quotedText body? ++ (pattern.pieces last tail).flatMap (Piece.edit change) := by
  cases body? with
  | none => exact ⟨before, rfl⟩
  | some body =>
    have same : (pattern.pieces (some '"') body).flatMap (Piece.edit change) = body := by
      have outside : pattern.pieces (some '"') body = pattern.pieces none body :=
        pieces_before exchanges.unanchored (by rfl) body
      rw [outside]
      exact exchanges.body body (isBody body rfl).undisturbed
    have opening := pieces_wall exchanges.stops rfl before [] (body ++ '"' :: tail)
    have closing := pieces_wall exchanges.stops rfl (some '"') body tail
    have written : quotedText (some body) ++ tail = [] ++ '"' :: (body ++ '"' :: tail) := by
      simp [quotedText]
    refine ⟨some '"', ?_⟩
    rw [written, opening, closing, pieces_nil]
    simp [Piece.edit, same, quotedText]

/-- A part at which no match begins stays. -/
theorem edit_part {rest : List Part} {before : Option Char} (spaced : Spaced (some part) rest)
    (none : pattern.hitAt? before (text (part :: rest)) = none) :
    ∃ last, (pattern.pieces before (text (part :: rest))).flatMap (Piece.edit change) =
      part.text ++ (pattern.pieces last (text rest)).flatMap (Piece.edit change) := by
  have single (c : Char) (none : pattern.hitAt? before (c :: text rest) = .none) :
      (pattern.pieces before (c :: text rest)).flatMap (Piece.edit change) =
        [c] ++ (pattern.pieces (some c) (text rest)).flatMap (Piece.edit change) := by
    rw [pieces_plain none]
    rfl
  have whole (part : Part) (ends : EndsWord (text rest))
      (none : pattern.hitAt? before (part.word ++ text rest) = .none) :=
    exchanges.edit_word ends none
  cases part with
  | gap c => exact ⟨some c, single c none⟩
  | opening => exact ⟨some '(', single '(' none⟩
  | closing => exact ⟨some ')', single ')' none⟩
  | joiner connective =>
    exact ⟨_, whole (.joiner connective) (endsWord_of_spaced rfl spaced) none⟩
  | negation => exact ⟨_, whole .negation (endsWord_of_spaced rfl spaced) none⟩
  | clause content =>
    have written : text (.clause content :: rest) =
        (Part.clause content).word ++ (quotedText content.body? ++ text rest) := by
      rw [text_cons, Part.text, Clause.text, List.append_assoc]
      rfl
    rw [written] at none ⊢
    rw [exchanges.edit_word (endsWord_of_clause spaced) none]
    obtain ⟨last, quoted⟩ := exchanges.edit_quoted content.isBody
      ((Part.clause content).word.getLast?.or before) (text rest)
    rw [quoted]
    exact ⟨last, (List.append_assoc _ _ _).symm⟩

/-- Replacing the matches in a filter gives a filter again. The induction goes over the number
of parts, since a match may take several of them. -/
theorem exists_edit (parts : List Part) (previous : Option Part) (before : Option Char)
    (spaced : Spaced previous parts) :
    ∃ others, (pattern.pieces before (text parts)).flatMap (Piece.edit change) = text others ∧
      Spaced previous others ∧ Keeps parts others := by
  induction length : parts.length using Nat.strongRecOn generalizing parts previous before with
  | ind count ih =>
    subst length
    cases hit : pattern.hitAt? before (text parts) with
    | some later =>
      obtain ⟨taken, rest, new, rfl, left, changed, keeps, fits⟩ :=
        exchanges.here previous parts before later spaced hit
      obtain ⟨member, shorter⟩ := mem_ends_of_hitAt hit
      obtain ⟨matched, leads, _⟩ := pattern.leads_of_mem_ends member
      have same : matched = text taken := by
        have whole : text (taken ++ rest) = matched ++ later.rest := leads.rest
        rw [text_append, left] at whole
        exact (List.append_cancel_right whole).symm
      have fewer : rest.length < (taken ++ rest).length := by
        cases taken with
        | nil =>
          rw [left] at shorter
          exact absurd shorter (Nat.lt_irrefl _)
        | cons part taken =>
          rw [List.length_append, List.length_cons]
          omega
      obtain ⟨others, edited, othersSpaced, othersKeep⟩ :=
        ih rest.length fewer rest _ later.before
          (Spaced.append_iff.mp spaced).2 rfl
      refine ⟨new ++ others, ?_, fits others othersSpaced, keeps.append othersKeep⟩
      rw [pieces_hit hit, leads.taken, List.flatMap_cons, same, left, edited, text_append,
        ← changed]
      rfl
    | none =>
      cases parts with
      | nil => exact ⟨[], by rw [text_nil, pieces_nil]; rfl, spaced, .refl _⟩
      | cons part rest =>
        obtain ⟨meets, behind⟩ := spaced
        obtain ⟨last, edited⟩ := exchanges.edit_part behind hit
        obtain ⟨others, same, othersSpaced, othersKeep⟩ :=
          ih rest.length (by simp) rest (some part) last behind rfl
        exact ⟨part :: others, by rw [edited, same, text_cons], ⟨meets, othersSpaced⟩,
          othersKeep.cons part⟩

end Exchanges

/-- The characters of a word are neither white space nor parentheses nor quotes. -/
theorem Part.solid_word (part : Part) (member : c ∈ part.word) :
    isSpace c = false ∧ c ∉ ['(', ')', '"'] := by
  cases part with
  | gap | opening | closing => contradiction
  | joiner connective =>
    have each : ∀ c ∈ joinerText connective, isSpace c = false ∧ c ∉ ['(', ')', '"'] := by
      cases connective <;> exact all_decide_iff.mp (by decide)
    exact each c member
  | negation =>
    have each : ∀ c ∈ negationText, isSpace c = false ∧ c ∉ ['(', ')', '"'] :=
      all_decide_iff.mp (by decide)
    exact each c member
  | clause content =>
    obtain ⟨visible, special⟩ := content.isLead.solid c member
    simp only [isBlank, Bool.or_eq_false_iff] at visible
    simp_all

/-- No match begins inside a word, if every match begins with white space or an opening
parenthesis. -/
theorem not_inside {pattern : Pattern}
    (begins : ∀ spot later, later ∈ pattern.ends spot →
      ∃ c rest, spot.rest = c :: rest ∧ (isSpace c = true ∨ c = '('))
    (part : Part) (early : List Char) (c : Char) (late tail : List Char)
    (split : part.word = early ++ c :: late) :
    pattern.hitAt? early.getLast? (c :: (late ++ tail)) = none := by
  obtain ⟨visible, special⟩ := part.solid_word (c := c) (by simp [split])
  refine hitAt_eq_none (List.eq_nil_iff_forall_not_mem.mpr fun later member => ?_)
  obtain ⟨d, rest, same, first⟩ := begins _ later member
  obtain rfl : c = d := (List.cons.inj same).1
  rcases first with space | rfl
  · simp [visible] at space
  · simp at special

theorem meets_gap (previous : Option Part) (c : Char) (blank : isGap c = true) :
    previous.all (·.meets (.gap c blank)) = true := by
  rcases previous with _ | ⟨_ | _ | _ | _ | _ | _⟩ <;> rfl

theorem meets_closing (previous : Option Part) : previous.all (·.meets .closing) = true := by
  rcases previous with _ | ⟨_ | _ | _ | _ | _ | _⟩ <;> rfl

def blank : Part := .gap ' ' rfl

theorem exchanges_emptyParens : Exchanges emptyParens fun _ _ => [' '] where
  stops := rfl
  unanchored := rfl
  body body undisturbed := replaceAll_of_findAll undisturbed.parens
  inside part early c late tail split _ _ := by
    refine not_inside (fun spot later member => ?_) part early c late tail split
    obtain ⟨_, ⟨gap, _, rfl⟩, text, _⟩ := (describes_emptyParens spot later).mp member
    exact ⟨_, _, text, .inr rfl⟩
  here previous parts before later spaced hit := by
    obtain ⟨_, ⟨gap, spaces, rfl⟩, written, _⟩ :=
      (describes_emptyParens _ _).mp (mem_ends_of_hitAt hit).1
    have opened : text parts = Part.opening.text ++ (gap ++ ')' :: later.rest) := by
      simpa [Part.text] using written
    obtain ⟨inner, rfl, behind⟩ := exists_of_paren (.inl rfl) opened
    obtain ⟨gaps, ending, blanks, rfl, _, closed⟩ := exists_of_blank (blank_of_space spaces) behind
    obtain ⟨rest, rfl, left⟩ := exists_of_paren (.inr rfl) (closed : _ = Part.closing.text ++ _)
    refine ⟨.opening :: (gaps ++ [.closing]), rest, [blank], by simp, left.symm, rfl,
      .parens (silent_of_gaps blanks) (by simp [blank, Part.isGap]), fun others fits => ?_⟩
    exact ⟨meets_gap previous ' ' rfl, fits.behind fun part => rfl⟩

theorem exchanges_spaces1 : Exchanges spaces1 fun _ _ => [' '] where
  stops := rfl
  unanchored := rfl
  body body undisturbed := collapse_eq_self_iff.mpr undisturbed.blanks
  inside part early c late tail split _ _ := by
    refine not_inside (fun spot later member => ?_) part early c late tail split
    obtain ⟨gap, ⟨some, spaces⟩, text, _⟩ := (describes_spaces1 spot later).mp member
    obtain ⟨d, gap, rfl⟩ := List.exists_cons_of_ne_nil some
    exact ⟨d, _, text, .inl (spaces d List.mem_cons_self)⟩
  here previous parts before later spaced hit := by
    obtain ⟨gap, ⟨_, spaces⟩, written, _⟩ :=
      (describes_spaces1 _ _).mp (mem_ends_of_hitAt hit).1
    obtain ⟨gaps, rest, blanks, rfl, _, left⟩ := exists_of_blank (blank_of_space spaces) written
    refine ⟨gaps, rest, [blank], rfl, left.symm, rfl,
      .silent (silent_of_gaps blanks) (by simp [blank, Part.isGap]), fun others fits => ?_⟩
    exact ⟨meets_gap previous ' ' rfl, fits.behind fun part => rfl⟩

/-- A connective next to a parenthesis goes with the white space around it. -/
theorem exchanges_danglingInside : Exchanges danglingInside
    fun found _ => if found.contains '(' then ['('] else [')'] where
  stops := rfl
  unanchored := rfl
  body body undisturbed := replaceAll_of_findAll undisturbed.inside
  inside part early c late tail split _ _ := by
    refine not_inside (fun spot later member => ?_) part early c late tail split
    obtain ⟨_, shape, text, _⟩ := (describes_danglingInside spot later).mp member
    rcases shape with ⟨gap, word, behind, _, _, _, rfl⟩ |
      ⟨gap, word, behind, ⟨some, spaces⟩, _, _, rfl⟩
    · exact ⟨_, _, text, .inr rfl⟩
    · obtain ⟨d, gap, rfl⟩ := List.exists_cons_of_ne_nil some
      exact ⟨d, _, text, .inl (spaces d List.mem_cons_self)⟩
  here previous parts before later spaced hit := by
    obtain ⟨_, shape, written, _⟩ :=
      (describes_danglingInside _ _).mp (mem_ends_of_hitAt hit).1
    rcases shape with ⟨gap, word, behind, spaces, connective, ⟨some, blanks⟩, rfl⟩ |
      ⟨gap, word, behind, ⟨_, spaces⟩, connective, blanks, rfl⟩
    · have opened : text parts =
          Part.opening.text ++ (gap ++ (word ++ (behind ++ later.rest))) := by
        simpa [Part.text] using written
      obtain ⟨inner, rfl, inside⟩ := exists_of_paren (.inl rfl) opened
      obtain ⟨silent, rest, quiet, rfl, _, left⟩ :=
        exists_of_dangling spaced.2 spaces connective blanks inside fun none => absurd none some
      refine ⟨.opening :: silent, rest, [.opening], rfl, left.symm, by simp [Part.text],
        (Keeps.silent quiet (by simp)).cons .opening, fun others fits => ?_⟩
      exact ⟨spaced.1, fits.behind fun part => rfl⟩
    · have closed : text parts =
          gap ++ (word ++ (behind ++ (Part.closing.text ++ later.rest))) := by
        simpa [Part.text] using written
      obtain ⟨silent, after, quiet, rfl, taken, ending⟩ :=
        exists_of_dangling spaced spaces connective blanks closed fun _ => rfl
      obtain ⟨rest, rfl, left⟩ := exists_of_paren (.inr rfl) ending
      have noOpening : '(' ∉ text silent := by
        rw [taken]
        exact not_mem_dangling spaces connective blanks (by decide)
      refine ⟨silent ++ [.closing], rest, [.closing], by simp, left.symm,
        by simp [noOpening, Part.text], ?_, fun others fits => ?_⟩
      · exact (Keeps.silent quiet (List.forall_mem_nil _)).append (.refl [.closing])
      · exact ⟨meets_closing previous, fits.behind fun part => rfl⟩

/-- A word ends with a connective only if it is one, or if the connective begins no word. -/
theorem Part.edge_of_suffix {early word : List Char} (split : part.word = early ++ word)
    (some : early ≠ []) (connective : IsConnective word) :
    Spot.atWordEdge ⟨early.getLast?, word, []⟩ = false := by
  have fixed (whole : List Char) (split : whole = early ++ word)
      (none : ∀ word ∈ whole.tail.tails, ¬ IsConnective word) : False := by
    obtain ⟨c, early, rfl⟩ := List.exists_cons_of_ne_nil some
    subst split
    exact none word ((List.mem_tails _ _).mpr ⟨early, rfl⟩) connective
  cases part with
  | gap | opening | closing => simp_all [Part.word]
  | joiner joined => exact (fixed _ split (by cases joined <;> decide)).elim
  | negation => exact (fixed _ split (by decide)).elim
  | clause content =>
    have split : content.lead = early ++ word := split
    have long : early.length ≤ content.lead.length := by
      rw [split, List.length_append]
      omega
    have none := content.isLead.ends early.length long (List.length_pos_iff.mpr some)
    rw [split, List.take_left, List.drop_left] at none
    exact none connective

/-- Connectives in a row do not begin inside a word. -/
theorem not_inside_doubled (part : Part) (early : List Char) (c : Char) (late tail : List Char)
    (split : part.word = early ++ c :: late) (some : early ≠ []) (ends : EndsWord tail) :
    doubledConnective.hitAt? early.getLast? (c :: (late ++ tail)) = none := by
  refine hitAt_eq_none (List.eq_nil_iff_forall_not_mem.mpr fun later member => ?_)
  obtain ⟨edge, first, next, connective, written, step, others⟩ :=
    mem_ends_doubledConnective.mp member
  obtain ⟨_, d, more, space, rest⟩ := leads_of_another step (steps_of_repeated others)
  have whole : (c :: late) ++ tail = first ++ d :: (more ++ later.rest) :=
    written.trans (congrArg _ rest)
  have same : c :: late = first := by
    rcases List.append_eq_append_iff.mp whole with
      ⟨between, rfl, behind⟩ | ⟨between, word, behind⟩
    · cases between with
      | nil => simp
      | cons e =>
        obtain ⟨visible, special⟩ := visible_of_connective connective (c := e) (by simp)
        rcases ends e (by simp [behind]) with isSpace | mark
        · simp [visible] at isSpace
        · exact absurd mark special
    · cases between with
      | nil => simpa using word
      | cons e =>
        obtain ⟨visible, _⟩ := part.solid_word (c := e) (by simp [split, word])
        obtain rfl : d = e := (List.cons.inj behind).1
        simp [space] at visible
  have none := Part.edge_of_suffix split some (same ▸ connective)
  exact absurd edge (by simpa [Spot.atWordEdge] using none)

/-- A further connective is made of parts. -/
theorem exists_of_another {spot later : Spot} (step : later ∈ another.ends spot)
    (spaced : Spaced previous parts) (written : text parts = spot.rest) :
    ∃ gaps joined rest, (∀ part ∈ gaps, part.isGap = true) ∧
      parts = gaps ++ .joiner joined :: rest ∧ text rest = later.rest := by
  obtain ⟨edge, gap, word, ⟨_, spaces⟩, connective, whole, same⟩ :=
    mem_ends_another.mp step
  obtain ⟨gaps, inner, blanks, rfl, _, worded⟩ :=
    exists_of_blank (blank_of_space spaces) (written.trans whole)
  have ended : Spot.atWordEdge ⟨word.getLast?, later.rest, []⟩ = true := by
    obtain ⟨c, last⟩ := Option.isSome_iff_exists.mp (List.getLast?_isSome.mpr connective.ne_nil)
    have front : later.before = word.getLast? := by simp [same, Spot.past, last]
    rw [← edge, ← front]
    rfl
  obtain ⟨joined, rest, rfl, _, left⟩ := exists_of_connective (Spaced.append_iff.mp spaced).2
    connective worded (.inr ended)
  exact ⟨gaps, joined, rest, blanks, rfl, left⟩

/-- So are several of them in a row. -/
theorem exists_of_others {spot later : Spot}
    (steps : Relation.ReflTransGen (fun spot later => later ∈ another.ends spot) spot
      later) {joined : Connective} (spaced : Spaced (some (.joiner joined)) parts)
    (written : text parts = spot.rest) :
    ∃ silent rest last, (∀ part ∈ silent, part.isSilent = true) ∧ parts = silent ++ rest ∧
      (Part.joiner joined :: silent).getLast? = some (.joiner last) ∧ text rest = later.rest := by
  induction steps with
  | refl => exact ⟨[], parts, joined, by simp, rfl, rfl, written⟩
  | tail _ step ih =>
    obtain ⟨silent, after, last, quiet, rfl, _, behind⟩ := ih
    obtain ⟨gaps, further, rest, blanks, rfl, left⟩ :=
      exists_of_another step (Spaced.append_iff.mp spaced).2 behind
    refine ⟨silent ++ (gaps ++ [.joiner further]), rest, further, ?_, by simp, ?_, left⟩
    · simp only [List.forall_mem_append, List.forall_mem_singleton]
      exact ⟨quiet, silent_of_gaps blanks, rfl⟩
    · rw [← List.append_assoc, ← List.cons_append, List.getLast?_concat]

theorem exchanges_doubledConnective : Exchanges doubledConnective
    fun _ groups => (groups.lookup "first").getD [] where
  stops := rfl
  unanchored := rfl
  body body undisturbed := replaceAll_of_findAll undisturbed.doubled
  inside := not_inside_doubled
  here previous parts before later spaced hit := by
    obtain ⟨_, first, next, connective, written, step, others⟩ :=
      mem_ends_doubledConnective.mp (mem_ends_of_hitAt hit).1
    have steps := steps_of_repeated others
    obtain ⟨groups, c, more, space, rest⟩ := leads_of_another step steps
    have ended : Ended (Spot.past ⟨before, text parts, []⟩ first).rest := by
      rw [show (Spot.past ⟨before, text parts, []⟩ first).rest = _ from rest]
      simp [Ended, space]
    obtain ⟨joined, after, rfl, same, behind⟩ :=
      exists_of_connective spaced connective written (.inl ended)
    obtain ⟨silent, kept, last, quiet, rfl, ending, left⟩ :=
      exists_of_others (.head step steps) spaced.2 behind
    refine ⟨.joiner joined :: silent, kept, [.joiner joined], rfl, left.symm, ?_,
      (Keeps.silent quiet (List.forall_mem_nil _)).cons (.joiner joined), fun others fits => ?_⟩
    · simp [groups, same, Part.text]
    · rw [ending, Option.some_or] at fits
      refine ⟨spaced.1, fits.mono ?_⟩
      exact fun part meets => meets

theorem Part.text_ne_nil (part : Part) : part.text ≠ [] := by
  cases part with
  | gap | opening | closing | negation => simp [Part.text, negationText]
  | joiner connective => cases connective <;> simp [Part.text, joinerText]
  | clause content => exact content.nonempty

theorem eq_nil_of_text (empty : text parts = []) : parts = [] := by
  cases parts with
  | nil => rfl
  | cons part rest => exact absurd (List.append_eq_nil_iff.mp empty).1 part.text_ne_nil

/-- A clause has white space inside its quotes only. -/
theorem quote_of_blank {content : Clause} {early late : List Char} (blank : isBlank c = true)
    (written : content.text = early ++ c :: late) : '"' ∈ c :: late := by
  rw [Clause.text] at written
  cases body : content.body? with
  | none =>
    have own : c ∈ content.lead := by
      rw [body, quotedText, List.append_nil] at written
      simp [written]
    simp [(content.isLead.solid c own).1] at blank
  | some body =>
    rw [body] at written
    have last : (c :: late).getLast? = some '"' := by
      have same := congrArg List.getLast? written
      rw [quotedText, ← List.cons_append, ← List.append_assoc, List.getLast?_concat] at same
      rw [same, List.getLast?_append_of_ne_nil _ (List.cons_ne_nil c late)]
    exact List.mem_of_getLast? last

/-- A stretch at the end that begins with white space and has no quotes is made of parts. -/
theorem exists_of_end {kept taken : List Char} (blank : isBlank c = true)
    (unquoted : '"' ∉ c :: taken) (written : text parts = kept ++ c :: taken) :
    ∃ front back, parts = front ++ back ∧ text front = kept ∧ text back = c :: taken := by
  induction parts generalizing kept with
  | nil => simp at written
  | cons part rest ih =>
    rcases List.append_eq_append_iff.mp written with ⟨more, rfl, behind⟩ | ⟨more, split, behind⟩
    · obtain ⟨front, back, rfl, same, ending⟩ := ih behind
      exact ⟨part :: front, back, rfl, by rw [text_cons, same], ending⟩
    · cases more with
      | nil => exact ⟨[part], rest, rfl, by simpa using split, behind.symm⟩
      | cons d more =>
        obtain ⟨rfl, behind⟩ := List.cons.inj behind
        have visible (each : part.text.all (fun c => isBlank c = false) = true) : False := by
          simp [all_decide_iff.mp each c (by simp [split])] at blank
        cases part with
        | gap e isGap =>
          obtain ⟨rfl, _⟩ : kept = [] ∧ e = c := by
            cases kept with
            | nil => exact ⟨rfl, (List.cons.inj split).1⟩
            | cons => simp [Part.text] at split
          exact ⟨[], .gap e isGap :: rest, rfl, rfl, written⟩
        | opening | closing | negation => exact (visible (by decide)).elim
        | joiner connective => exact (visible (by cases connective <;> decide)).elim
        | clause content =>
          have quote := quote_of_blank blank split
          exact absurd (by simp_all) unquoted

/-- A change of text under which a layout stays one, and keeps its clauses. -/
def KeepsLayout (change : List Char → List Char) : Prop :=
  ∀ parts, Spaced none parts →
    ∃ others, change (text parts) = text others ∧ Spaced none others ∧ Keeps parts others

namespace KeepsLayout

variable {change other : List Char → List Char}

theorem comp (outer : KeepsLayout other) (inner : KeepsLayout change) :
    KeepsLayout (other ∘ change) := by
  intro parts spaced
  obtain ⟨others, same, spaced, keeps⟩ := inner parts spaced
  obtain ⟨last, also, spaced, keepsLast⟩ := outer others spaced
  exact ⟨last, by rw [Function.comp_apply, same, also], spaced, keeps.trans keepsLast⟩

theorem replaceAll {pattern : Pattern}
    {change : List Char → List (String × List Char) → List Char}
    (exchanges : Exchanges pattern change) : KeepsLayout (pattern.replaceAll change) :=
  fun parts spaced => exchanges.exists_edit parts none none spaced

theorem tidy : KeepsLayout Selector.tidy :=
  (replaceAll exchanges_doubledConnective).comp
    ((replaceAll exchanges_danglingInside).comp (replaceAll exchanges_emptyParens))

/-- Silent parts at the beginning can be left out. -/
theorem drop_front {silent rest : List Part} (quiet : ∀ part ∈ silent, part.isSilent = true)
    (spaced : Spaced none (silent ++ rest)) :
    Spaced none rest ∧ Keeps (silent ++ rest) rest :=
  ⟨(Spaced.append_iff.mp spaced).2.behind fun _ => rfl,
    (Keeps.silent quiet (List.forall_mem_nil _)).append (.refl rest)⟩

/-- So can silent parts at the end. -/
theorem drop_back {front silent : List Part} (quiet : ∀ part ∈ silent, part.isSilent = true)
    (spaced : Spaced none (front ++ silent)) :
    Spaced none front ∧ Keeps (front ++ silent) front := by
  refine ⟨(Spaced.append_iff.mp spaced).1, ?_⟩
  simpa using (Keeps.refl front).append (Keeps.silent quiet (List.forall_mem_nil _))

theorem dropLead : KeepsLayout Selector.dropLead := by
  intro parts spaced
  cases hit : Selector.danglingLead.hitAt? none (text parts) with
  | none =>
    exact ⟨parts, replaceAll_of_start_none Selector.danglingLead_anchored hit, spaced, .refl _⟩
  | some =>
    obtain ⟨_, _, dropped⟩ :=
      replaceAll_of_start_hit Selector.danglingLead_anchored hit fun _ _ => []
    obtain ⟨_, gap, word, behind, spaces, connective, ⟨some, blanks⟩, written, _⟩ :=
      Selector.mem_ends_danglingLead.mp (mem_ends_of_hitAt hit).1
    obtain ⟨silent, rest, quiet, rfl, _, left⟩ :=
      exists_of_dangling spaced spaces connective blanks written fun none => absurd none some
    exact ⟨rest, dropped.trans left.symm, drop_front quiet spaced⟩

theorem dropTrail : KeepsLayout Selector.dropTrail := by
  intro parts spaced
  have anchored (before : Option Char) (text : List Char) (later : Spot)
      (hit : Selector.danglingTrail.hitAt? before text = some later) : later.rest = [] :=
    (Selector.mem_ends_danglingTrail.mp (mem_ends_of_hitAt hit).1).1
  rcases replaceAll_of_stop anchored (text parts) with
    same | ⟨kept, taken, before, later, split, dropped, hit⟩
  · exact ⟨parts, same, spaced, .refl _⟩
  · obtain ⟨_, gap, word, behind, ⟨some, spaces⟩, connective, blanks, written, _⟩ :=
      Selector.mem_ends_danglingTrail.mp (mem_ends_of_hitAt hit).1
    obtain ⟨c, gap, rfl⟩ := List.exists_cons_of_ne_nil some
    have unquoted : '"' ∉ c :: gap ++ (word ++ behind) :=
      not_mem_dangling spaces connective blanks (by decide)
    obtain ⟨front, back, rfl, same, ending⟩ := exists_of_end
      (blank_of_space spaces c List.mem_cons_self) unquoted (split.trans (congrArg _ written))
    have ended : Ended [] := rfl
    obtain ⟨silent, rest, quiet, rfl, _, left⟩ := exists_of_dangling (Spaced.append_iff.mp spaced).2
      spaces connective blanks (by simpa using ending) fun _ => ended
    obtain rfl := eq_nil_of_text left
    rw [List.append_nil] at spaced dropped ⊢
    exact ⟨front, dropped.trans same.symm, drop_back quiet spaced⟩

theorem trimChars : KeepsLayout trimChars := by
  intro parts spaced
  obtain ⟨lead, trail, leading, trailing, split⟩ := exists_trimBy isBlank (text parts)
  rw [List.append_assoc] at split
  obtain ⟨gaps, middle, blanks, rfl, _, written⟩ := exists_of_blank leading split
  obtain ⟨middleSpaced, keepsMiddle⟩ := drop_front (silent_of_gaps blanks) spaced
  obtain ⟨front, back, rfl, same, silent⟩ : ∃ front back, middle = front ++ back ∧
      text front = Text.trimChars (text (gaps ++ middle)) ∧
      ∀ part ∈ back, part.isSilent = true := by
    cases trail with
    | nil => exact ⟨middle, [], by simp, written.trans (List.append_nil _), List.forall_mem_nil _⟩
    | cons c trail =>
      have unquoted : '"' ∉ c :: trail := fun own => absurd (trailing _ own) (by decide)
      obtain ⟨front, back, rfl, same, ending⟩ :=
        exists_of_end (trailing c List.mem_cons_self) unquoted written
      rw [← List.append_nil (c :: trail)] at ending
      obtain ⟨trailed, rest, blanks, rfl, _, left⟩ := exists_of_blank trailing ending
      obtain rfl := eq_nil_of_text left
      exact ⟨front, trailed ++ [], rfl, same, by simpa using silent_of_gaps blanks⟩
  obtain ⟨frontSpaced, keepsFront⟩ := drop_back silent middleSpaced
  exact ⟨front, same.symm, frontSpaced, keepsMiddle.trans keepsFront⟩

theorem cleanOnce : KeepsLayout Selector.cleanOnce :=
  dropTrail.comp (dropLead.comp tidy)

theorem cleanAll : KeepsLayout Selector.cleanAll := by
  intro parts spaced
  induction written : text parts using Selector.cleanAll.induct generalizing parts with
  | case1 text shorter ih =>
    obtain ⟨others, same, othersSpaced, keeps⟩ := cleanOnce parts spaced
    rw [written] at same
    obtain ⟨last, also, lastSpaced, keepsLast⟩ := ih others othersSpaced same.symm
    rw [Selector.cleanAll, if_pos shorter]
    exact ⟨last, also, lastSpaced, keeps.trans keepsLast⟩
  | case2 text longer =>
    rw [Selector.cleanAll, if_neg longer, ← written]
    exact cleanOnce parts spaced

theorem clean : KeepsLayout Selector.clean :=
  trimChars.comp ((replaceAll exchanges_spaces1).comp cleanAll)

end KeepsLayout

end Detection.Spl

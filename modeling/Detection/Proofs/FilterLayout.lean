import Detection.Language.Spl
import Detection.Proofs.Cleaning
import Detection.Proofs.LeafPolarity
import Detection.Proofs.SelectorCuts
import Detection.Proofs.TextReading

/-!
# The layout of a Splunk filter

A filter is laid out as clauses, the words AND, OR and NOT, parentheses and white space. A
clause is a word without white space, a quoted text, or such a word with a quoted text right
behind it, and it is read as one leaf wherever it stands. Parts that would run into each other
have white space or a parenthesis between them.

`run` walks over the parts and notes under which NOTs each clause stands. It goes on only where
a NOT has something to negate that is no selector: a clause, or parentheses with such a clause
inside. Parts can be left out of a layout, or be put in, as long as the walk does not notice:
that is what `Keeps` says.
-/
namespace Detection.Spl

open Text Pattern

/-- Whether a selector begins at a text behind a character: its name, which begins or ends a
word there, and the sign. -/
def startsSelector (before : Option Char) (text : List Char) : Bool :=
  Spot.atWordEdge ⟨before, text, []⟩ && ["index", "sourcetype", "source"].any fun name =>
    (text.take name.length).map foldKey == name.toList.map foldKey &&
      (text.drop name.length).head? == some '='

/-- A word that a clause may begin with. Cleaning does not take it or a part of it for a
connective, and a selector begins in it at its first character or nowhere. -/
structure IsLead (lead : List Char) : Prop where
  solid : ∀ c ∈ lead, isBlank c = false ∧ c ∉ ['(', ')', '"', '\'']
  unsigned : lead.head? ≠ some '='
  noConnective : ¬ Selector.IsConnective lead
  starts : ∀ n ≤ lead.length, Selector.IsConnective (lead.take n) →
    Spot.atWordEdge ⟨(lead.take n).getLast?, lead.drop n, []⟩ = false
  ends : ∀ n ≤ lead.length, 0 < n → Selector.IsConnective (lead.drop n) →
    Spot.atWordEdge ⟨(lead.take n).getLast?, lead.drop n, []⟩ = false
  sole : ∀ n ≤ lead.length, 0 < n →
    startsSelector (lead.take n).getLast? (lead.drop n) = false

instance : DecidablePred IsLead := fun lead =>
  decidable_of_iff
    (lead.all (fun c => isBlank c = false ∧ c ∉ ['(', ')', '"', '\'']) = true ∧
      lead.head? ≠ some '=' ∧
      ¬ Selector.IsConnective lead ∧
      (∀ n ≤ lead.length, Selector.IsConnective (lead.take n) →
        Spot.atWordEdge ⟨(lead.take n).getLast?, lead.drop n, []⟩ = false) ∧
      (∀ n ≤ lead.length, 0 < n → Selector.IsConnective (lead.drop n) →
        Spot.atWordEdge ⟨(lead.take n).getLast?, lead.drop n, []⟩ = false) ∧
      ∀ n ≤ lead.length, 0 < n →
        startsSelector (lead.take n).getLast? (lead.drop n) = false)
    ⟨fun ⟨solid, unsigned, noConnective, starts, ends, sole⟩ =>
        ⟨all_decide_iff.mp solid, unsigned, noConnective, starts, ends, sole⟩,
      fun ⟨solid, unsigned, noConnective, starts, ends, sole⟩ =>
        ⟨all_decide_iff.mpr solid, unsigned, noConnective, starts, ends, sole⟩⟩

/-- What may stand between double quotes: the next quote ends it, and cleaning leaves it as it
is. -/
structure IsBody (body : List Char) : Prop where
  unquoted : ∀ c ∈ body, c ≠ '"'
  closed : (Selector.Quoting.double false).after body = .double false
  undisturbed : Selector.Undisturbed body

instance : DecidablePred IsBody := fun body =>
  decidable_of_iff (body.all (fun c => c ≠ '"') = true ∧
      (Selector.Quoting.double false).after body = .double false ∧ Selector.Undisturbed body)
    ⟨fun ⟨unquoted, closed, undisturbed⟩ => ⟨all_decide_iff.mp unquoted, closed, undisturbed⟩,
      fun ⟨unquoted, closed, undisturbed⟩ => ⟨all_decide_iff.mpr unquoted, closed, undisturbed⟩⟩

/-- The quoted text behind a word, if there is one. -/
def quotedText : Option (List Char) → List Char
  | some body => '"' :: (body ++ ['"'])
  | none => []

/-- The tokens of a clause: a leaf, or its complement. -/
def clauseTokens (negated : Bool) (leaf : Leaf) : List Token :=
  if negated then [.not, .opening, .leaf leaf, .closing] else [.leaf leaf]

/-- A clause with the leaf that it is read as. The value of a selector is either part of the
word or quoted. -/
structure Clause where
  lead : List Char
  body? : Option (List Char)
  negated : Bool
  leaf : Leaf
  isLead : IsLead lead
  isBody : ∀ body ∈ body?, IsBody body
  nonempty : lead ++ quotedText body? ≠ []
  valued : startsSelector none lead = true →
    ((lead.dropWhile (· != '=')).tail = [] ↔ body?.isSome = true)
  reads : dialect.ReadsAs (lead ++ quotedText body?) (clauseTokens negated leaf)

def Clause.text (clause : Clause) : List Char :=
  clause.lead ++ quotedText clause.body?

/-- Whether a clause says where to look. -/
def Clause.isSelector (clause : Clause) : Bool :=
  startsSelector none clause.lead

def joinerText : Connective → List Char
  | .and => ['A', 'N', 'D']
  | .or => ['O', 'R']

def negationText : List Char := ['N', 'O', 'T']

/-- A part of a filter. -/
inductive Part
  | gap (c : Char) (blank : isGap c = true)
  | opening
  | closing
  | joiner (connective : Connective)
  | negation
  | clause (content : Clause)

namespace Part

def text : Part → List Char
  | gap c _ => [c]
  | opening => ['(']
  | closing => [')']
  | joiner connective => joinerText connective
  | negation => negationText
  | clause content => content.text

/-- Whether a part is a word, a quoted text or both. -/
def isWord : Part → Bool
  | joiner _ | negation | clause _ => true
  | gap .. | opening | closing => false

/-- Whether a part can stand right behind another one. -/
def meets : Part → Part → Bool
  | gap .., _ | opening, _ | closing, _ => true
  | joiner _, next | negation, next => !next.isWord
  | clause _, opening => false
  | clause _, next => !next.isWord

end Part

variable {parts others rest gaps : List Part} {previous : Option Part}
  {clauses : List (Bool × Clause)}

def text (parts : List Part) : List Char :=
  parts.flatMap Part.text

@[simp] theorem text_nil : text [] = [] := rfl

@[simp] theorem text_cons (part : Part) (parts : List Part) :
    text (part :: parts) = part.text ++ text parts := rfl

@[simp] theorem text_append (parts others : List Part) :
    text (parts ++ others) = text parts ++ text others :=
  List.flatMap_append

/-- Whether each of some parts can stand behind the one in front of it, the first of them
behind `previous`. -/
def Spaced (previous : Option Part) : List Part → Prop
  | [] => True
  | part :: rest => previous.all (·.meets part) = true ∧ Spaced (some part) rest

namespace Spaced

theorem append_iff :
    Spaced previous (parts ++ others) ↔
      Spaced previous parts ∧ Spaced (parts.getLast?.or previous) others := by
  induction parts generalizing previous with
  | nil => simp [Spaced]
  | cons part parts ih =>
    rw [List.cons_append, Spaced, Spaced, ih, and_assoc, List.getLast?_cons]
    cases parts.getLast? <;> rfl

/-- Of what stands in front it only matters what can stand behind it. -/
theorem mono {other : Option Part}
    (weaker : ∀ part, previous.all (·.meets part) = true → other.all (·.meets part) = true)
    (spaced : Spaced previous parts) : Spaced other parts := by
  cases parts with
  | nil => trivial
  | cons part => exact ⟨weaker part spaced.1, spaced.2⟩

/-- Anything can stand behind white space and parentheses. -/
theorem behind {other : Option Part} (free : ∀ part, other.all (·.meets part) = true)
    (spaced : Spaced previous parts) : Spaced other parts :=
  spaced.mono fun part _ => free part

/-- A part that is a word has none right behind it. -/
theorem apart {part : Part} (isWord : part.isWord = true) (spaced : Spaced (some part) rest) :
    ∀ next ∈ rest.head?, next.isWord = false := by
  intro next first
  obtain ⟨others, rfl⟩ := List.head?_eq_some_iff.mp first
  have meets : part.meets next = true := spaced.1
  cases part with
  | gap | opening | closing => contradiction
  | joiner | negation => simpa [Part.meets] using meets
  | clause content =>
    cases next with
    | gap | opening | closing => rfl
    | joiner | negation | clause => contradiction

end Spaced

/-- Where a part stands: whether an odd number of NOTs stands around its scope, the number of
NOTs that wait for an operand, and the scopes around. Of each of these the same is known, and
whether it stands behind a NOT and has no clause yet that is kept. -/
structure Standing where
  odd : Bool := false
  negations : Nat := 0
  scopes : List (Bool × Bool) := []

variable {standing last : Standing}

/-- The walk over one part: where the next part stands, and the clause of the part with whether
an odd number of NOTs stands around it. -/
def Standing.step (standing : Standing) : Part → Option (Standing × List (Bool × Clause))
  | .gap .. => some (standing, [])
  | .joiner _ => if standing.negations = 0 then some (standing, []) else none
  | .negation => some ({ standing with negations := standing.negations + 1 }, [])
  | .opening =>
    some ({ odd := negatedValue standing.negations standing.odd
            scopes := (standing.odd, standing.negations != 0) :: standing.scopes }, [])
  | .closing =>
    match standing.negations, standing.scopes with
    | 0, (odd, false) :: outer => some ({ odd, scopes := outer }, [])
    | _, _ => none
  | .clause content =>
    if content.isSelector then
      if standing.negations = 0 then some (standing, [(standing.odd, content)]) else none
    else
      some ({ standing with
              negations := 0
              scopes := standing.scopes.map fun (odd, _) => (odd, false) },
        [(negatedValue standing.negations standing.odd, content)])

def run (standing : Standing) : List Part → Option (Standing × List (Bool × Clause))
  | [] => some (standing, [])
  | part :: rest => do
    let (next, clauses) ← standing.step part
    let (last, others) ← run next rest
    return (last, clauses ++ others)

theorem run_cons {part : Part} :
    run standing (part :: rest) = some (last, clauses) ↔
      ∃ next own others, standing.step part = some (next, own) ∧
        run next rest = some (last, others) ∧ clauses = own ++ others := by
  rw [run]
  cases standing.step part with
  | none => simp
  | some found =>
    obtain ⟨next, own⟩ := found
    cases behind : run next rest with
    | none => simp [behind]
    | some later =>
      obtain ⟨ending, others⟩ := later
      simp [behind, eq_comm, and_comm]

/-- The walk over parts goes on behind them. -/
theorem run_append :
    run standing (parts ++ rest) = some (last, clauses) ↔
      ∃ next own others, run standing parts = some (next, own) ∧
        run next rest = some (last, others) ∧ clauses = own ++ others := by
  induction parts generalizing standing clauses with
  | nil => simp [run]
  | cons part parts ih =>
    rw [List.cons_append, run_cons]
    constructor
    · rintro ⟨next, own, others, stepped, behind, rfl⟩
      obtain ⟨middle, inner, outer, walked, later, rfl⟩ := ih.mp behind
      exact ⟨middle, own ++ inner, outer, run_cons.mpr ⟨next, own, inner, stepped, walked, rfl⟩,
        later, by simp⟩
    · rintro ⟨middle, inner, outer, walked, later, rfl⟩
      obtain ⟨next, own, others, stepped, behind, rfl⟩ := run_cons.mp walked
      exact ⟨next, own, others ++ outer, stepped,
        ih.mpr ⟨middle, others, outer, behind, later, rfl⟩, by simp⟩

/-- Whether a clause is kept when the selectors are taken out. -/
def isKept (entry : Bool × Clause) : Bool :=
  !entry.2.isSelector

/-- Wherever the walk gets over some parts, it gets over the others to the same place. It finds
no clause in them that is not in the parts, and all that are kept. -/
def Keeps (parts others : List Part) : Prop :=
  ∀ standing last clauses, run standing parts = some (last, clauses) →
    ∃ left, run standing others = some (last, left) ∧ left.Sublist clauses ∧
      left.filter isKept = clauses.filter isKept

namespace Keeps

theorem refl (parts : List Part) : Keeps parts parts :=
  fun _ _ clauses walked => ⟨clauses, walked, .refl _, rfl⟩

theorem trans {more : List Part} (first : Keeps parts others) (second : Keeps others more) :
    Keeps parts more := by
  intro standing last clauses walked
  obtain ⟨left, walked, fewer, kept⟩ := first standing last clauses walked
  obtain ⟨still, walked, evenFewer, also⟩ := second standing last left walked
  exact ⟨still, walked, evenFewer.trans fewer, also.trans kept⟩

/-- Parts can be exchanged one stretch after the other. -/
theorem append {more : List Part} (first : Keeps parts others) (second : Keeps rest more) :
    Keeps (parts ++ rest) (others ++ more) := by
  intro standing last clauses walked
  obtain ⟨next, own, behind, early, late, rfl⟩ := run_append.mp walked
  obtain ⟨left, early, fewer, kept⟩ := first standing next own early
  obtain ⟨still, late, evenFewer, also⟩ := second next last behind late
  refine ⟨left ++ still, run_append.mpr ⟨next, left, still, early, late, rfl⟩,
    fewer.append evenFewer, ?_⟩
  rw [List.filter_append, List.filter_append, kept, also]

theorem cons (part : Part) (keeps : Keeps parts others) : Keeps (part :: parts) (part :: others) :=
  (refl [part]).append keeps

end Keeps

/-- White space and connectives, which the walk does not note. -/
def Part.isSilent : Part → Bool
  | gap .. | joiner _ => true
  | opening | closing | negation | clause _ => false

/-- The walk does not move over silent parts. -/
theorem run_silent (silent : ∀ part ∈ parts, part.isSilent = true)
    (walked : run standing parts = some (last, clauses)) : last = standing ∧ clauses = [] := by
  induction parts generalizing standing clauses with
  | nil => simpa [run, eq_comm] using walked
  | cons part parts ih =>
    obtain ⟨own, others⟩ := List.forall_mem_cons.mp silent
    obtain ⟨next, found, behind, stepped, later, rfl⟩ := run_cons.mp walked
    have still : next = standing ∧ found = [] := by
      cases part with
      | gap => simpa [Standing.step, eq_comm] using stepped
      | joiner =>
        simp only [Standing.step, Option.ite_none_right_eq_some, Option.some.injEq,
          Prod.mk.injEq] at stepped
        exact ⟨stepped.2.1.symm, stepped.2.2.symm⟩
      | opening | closing | negation | clause => contradiction
    obtain ⟨rfl, rfl⟩ := still
    obtain ⟨rfl, rfl⟩ := ih others later
    exact ⟨rfl, rfl⟩

def Part.isGap : Part → Bool
  | gap .. => true
  | opening | closing | joiner _ | negation | clause _ => false

theorem run_gaps (blank : ∀ part ∈ gaps, part.isGap = true) (standing : Standing) :
    run standing gaps = some (standing, []) := by
  induction gaps with
  | nil => rfl
  | cons part gaps ih =>
    obtain ⟨own, others⟩ := List.forall_mem_cons.mp blank
    cases part with
    | gap => exact run_cons.mpr ⟨standing, [], [], rfl, ih others, rfl⟩
    | opening | closing | joiner | negation | clause => contradiction

/-- Silent parts can be left out, or be exchanged for white space. -/
theorem Keeps.silent (silent : ∀ part ∈ parts, part.isSilent = true)
    (blank : ∀ part ∈ gaps, part.isGap = true) : Keeps parts gaps := by
  intro standing last clauses walked
  obtain ⟨rfl, rfl⟩ := run_silent silent walked
  exact ⟨[], run_gaps blank last, .refl _, rfl⟩

/-- So can parentheses around white space: no NOT can stand in front of them. -/
theorem Keeps.parens {inner : List Part} (silent : ∀ part ∈ inner, part.isSilent = true)
    (blank : ∀ part ∈ gaps, part.isGap = true) :
    Keeps (.opening :: (inner ++ [.closing])) gaps := by
  intro standing last clauses walked
  obtain ⟨scope, _, others, opened, behind, rfl⟩ := run_cons.mp walked
  obtain ⟨same, inside, after, within, ending, rfl⟩ := run_append.mp behind
  obtain ⟨rfl, rfl⟩ := run_silent silent within
  obtain ⟨next, found, none, closed, done, rfl⟩ := run_cons.mp ending
  obtain ⟨odd, negations, scopes⟩ := standing
  cases opened
  cases negations with
  | succ => simp [Standing.step] at closed
  | zero =>
    cases closed
    cases done
    exact ⟨[], run_gaps blank _, .refl _, rfl⟩

/-- A selector can be left out: no NOT can stand in front of it. -/
theorem Keeps.selector {content : Clause} (selects : content.isSelector = true)
    (blank : ∀ part ∈ gaps, part.isGap = true) : Keeps [.clause content] gaps := by
  intro standing last clauses walked
  obtain ⟨next, own, others, stepped, done, rfl⟩ := run_cons.mp walked
  simp only [Standing.step, selects, ↓reduceIte, Option.ite_none_right_eq_some,
    Option.some.injEq, Prod.mk.injEq] at stepped
  obtain ⟨_, rfl, rfl⟩ := stepped
  cases done
  exact ⟨[], run_gaps blank _, List.nil_sublist _, by simp [isKept, selects]⟩

end Detection.Spl

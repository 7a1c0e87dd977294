import Detection.Proofs.Infix
import Detection.Proofs.UnescapedPieces
import Detection.Proofs.WildcardMeaning

/-!
# Searches for alternations

A regular expression of bars and stars is searched for in parts: one of its alternatives has to
have all of its parts in the subject. That is less than what the expression asks for, since the
parts of an alternative would have to stand in order and apart from each other. So the search may
find more, but a subject of the expression is never missed.

The rewriting drops empty parts, and alternatives without parts. An empty part is found
everywhere, so dropping it changes nothing; an alternative without parts would be found
everywhere, and the search for the others does not stand for it.
-/
namespace Detection

open Text

/-- Pieces occur in a subject one behind the other, without overlapping. -/
def OccurInOrder : List (List Char) → List Char → Prop
  | [], _ => True
  | piece :: others, subject =>
    ∃ before after, subject = before ++ piece ++ after ∧ OccurInOrder others after

/-- Each of the pieces is a part of the subject. -/
theorem OccurInOrder.isInfix {pieces : List (List Char)} {subject : List Char}
    (ordered : OccurInOrder pieces subject) : ∀ piece ∈ pieces, piece <:+: subject := by
  induction pieces generalizing subject with
  | nil => simp
  | cons piece others ih =>
    obtain ⟨before, after, rfl, rest⟩ := ordered
    intro other member
    rcases List.mem_cons.mp member with rfl | behind
    · exact List.infix_append before other after
    · exact (ih rest other behind).trans (List.suffix_append _ after).isInfix

/-- The first piece stands at the beginning of a subject, and the others occur behind it. -/
def LeadInOrder (pieces : List (List Char)) (subject : List Char) : Prop :=
  ∃ first others after,
    pieces = first :: others ∧ subject = first ++ after ∧ OccurInOrder others after

/-- Pieces occur in order if they do so from some place on. -/
theorem occurInOrder_iff {pieces : List (List Char)} (some : pieces ≠ []) (subject : List Char) :
    OccurInOrder pieces subject ↔ ∃ part, part <:+ subject ∧ LeadInOrder pieces part := by
  obtain ⟨first, others, rfl⟩ := List.exists_cons_of_ne_nil some
  constructor
  · rintro ⟨before, after, rfl, rest⟩
    exact ⟨first ++ after, ⟨before, (List.append_assoc ..).symm⟩, first, others, after, rfl, rfl,
      rest⟩
  · rintro ⟨part, ⟨before, rfl⟩, _, _, after, same, rfl, rest⟩
    cases same
    exact ⟨before, after, (List.append_assoc ..).symm, rest⟩

/-- A character in front of the first piece has to stand in front of the subject. -/
theorem leadInOrder_modifyHead {pieces : List (List Char)} (some : pieces ≠ []) (c : Char)
    (subject : List Char) :
    LeadInOrder (pieces.modifyHead (c :: ·)) subject ↔
      ∃ rest, subject = c :: rest ∧ LeadInOrder pieces rest := by
  obtain ⟨first, others, rfl⟩ := List.exists_cons_of_ne_nil some
  constructor
  · rintro ⟨_, _, after, same, rfl, ordered⟩
    cases same
    exact ⟨first ++ after, rfl, first, others, after, rfl, rfl, ordered⟩
  · rintro ⟨_, rfl, _, _, after, same, rfl, ordered⟩
    cases same
    exact ⟨c :: first, others, after, rfl, rfl, ordered⟩

/-- A text with stars asks for its pieces in order, the first of them at the beginning. -/
theorem fits_glob_iff (text subject : List Char) :
    Fits (glob '*' text ++ [.anyText]) subject ↔ LeadInOrder (text.splitOn '*') subject := by
  induction text generalizing subject with
  | nil =>
    constructor
    · intro _
      exact ⟨[], [], subject, rfl, rfl, trivial⟩
    · intro _
      exact ⟨subject, [], (List.append_nil subject).symm, trivial, rfl⟩
  | cons c rest ih =>
    have some := List.splitOn_ne_nil '*' rest
    rw [List.splitOn_cons_eq_if_modifyHead, glob, List.map_cons, List.cons_append]
    by_cases star : c = '*'
    · have lead : LeadInOrder ([] :: rest.splitOn '*') subject ↔
          OccurInOrder (rest.splitOn '*') subject := by
        constructor
        · rintro ⟨_, _, after, same, rfl, ordered⟩
          cases same
          exact ordered
        · intro ordered
          exact ⟨[], _, subject, rfl, rfl, ordered⟩
      rw [if_pos star, if_pos (beq_iff_eq.mpr star), fits_anyText_cons, lead,
        occurInOrder_iff some]
      exact exists_congr fun part => and_congr_right fun _ => ih part
    · rw [if_neg star, if_neg (by simpa using star), leadInOrder_modifyHead some]
      constructor
      · rintro ⟨_, behind, rfl, rfl, fits⟩
        exact ⟨behind, rfl, (ih behind).mp fits⟩
      · rintro ⟨behind, rfl, ordered⟩
        exact ⟨[c], behind, rfl, rfl, (ih behind).mpr ordered⟩

/-- A field contains what a text with stars describes exactly if its pieces occur in order. -/
theorem holds_contains_iff (text subject : List Char) :
    Operator.contains.Holds (.pattern (String.ofList text) true) (some subject) ↔
      OccurInOrder (text.splitOn '*') subject := by
  have known : (Value.pattern (String.ofList text) true).stretches? = some (glob '*' text) := by
    rw [Value.stretches?, String.toList_ofList]
  rw [Operator.holds_iff_around (by simp [Operator.seeking]) known,
    occurInOrder_iff (List.splitOn_ne_nil '*' text)]
  simp only [Operator.around, Option.mem_def, Option.some.injEq, exists_eq_left',
    fits_anyText_cons, fits_glob_iff]

section Splitting

variable {separator : Char} {text : List Char}

/-- Without backslashes every separator cuts. -/
theorem splitUnescapedFrom_eq (before : Option Char) (free : before ≠ some '\\')
    (current : List Char) (plain : '\\' ∉ text) :
    splitUnescapedFrom separator before current text =
      text.splitOnPPrepend (· == separator) current := by
  induction text generalizing before current with
  | nil => rfl
  | cons c rest ih =>
    obtain ⟨other, behind⟩ := not_or.mp (mt List.mem_cons.mpr plain)
    have next : some c ≠ some '\\' := fun same => other (Option.some.inj same).symm
    rw [splitUnescapedFrom, List.splitOnPPrepend_cons_eq_if, ih _ next [] behind,
      ih _ next (c :: current) behind, List.splitOnPPrepend_nil_right]
    simp [free]

theorem splitUnescaped_eq (separator : Char) (plain : '\\' ∉ text) :
    splitUnescaped separator text = text.splitOn separator := by
  rw [splitUnescaped, splitUnescapedFrom_eq none (by simp) [] plain,
    List.splitOnPPrepend_nil_right, List.splitOn_eq_splitOnP]

end Splitting

/-- The groups of an alternation are the parts of its alternatives that have any. -/
theorem mem_splitAlternation_iff {text : List Char} {group : List (List Char)} :
    group ∈ splitAlternation text ↔ group ≠ [] ∧ ∃ alternative ∈ splitUnescaped '|' text,
      group = (splitUnescaped '*' alternative).filter (!·.isEmpty) := by
  simp only [splitAlternation, List.mem_filter, List.mem_map, Bool.not_eq_eq_eq_not, Bool.not_true,
    List.isEmpty_eq_false_iff]
  constructor
  · rintro ⟨⟨alternative, member, rfl⟩, some⟩
    exact ⟨some, alternative, member, rfl⟩
  · rintro ⟨some, alternative, member, rfl⟩
    exact ⟨⟨alternative, member, rfl⟩, some⟩

/-- An alternative with a character that is no star has a group, and the parts of the group are
among the pieces between its stars. -/
theorem exists_group {text alternative : List Char}
    (member : alternative ∈ splitUnescaped '|' text) {c : Char} (inside : c ∈ alternative)
    (visible : c ≠ '*') :
    ∃ group ∈ splitAlternation text, ∀ part ∈ group, part ∈ splitUnescaped '*' alternative := by
  refine ⟨(splitUnescaped '*' alternative).filter (!·.isEmpty),
    mem_splitAlternation_iff.mpr ⟨fun none => ?_, alternative, member, rfl⟩,
    fun part kept => (List.mem_filter.mp kept).1⟩
  have dropped := flatten_splitUnescaped (by decide : '*' ≠ '\\') alternative
  rw [← List.flatten_filter_not_isEmpty, none] at dropped
  have stars := (dropUnescaped_eq_nil_iff (by decide) (by simp)).mp dropped.symm
  exact visible (List.mem_singleton.mp (stars c inside))

/-- An alternation has no groups exactly if it is made of bars and stars alone. -/
theorem splitAlternation_eq_nil_iff (text : List Char) :
    splitAlternation text = [] ↔ ∀ c ∈ text, c = '|' ∨ c = '*' := by
  have marks : dropUnescaped ['|', '*'] none text = [] ↔ ∀ c ∈ text, c ∈ ['|', '*'] :=
    dropUnescaped_eq_nil_iff (by decide) (by simp)
  rw [← flatten_splitAlternation] at marks
  simp only [List.mem_cons, List.not_mem_nil, or_false] at marks
  rw [← marks, List.flatten_eq_nil_iff]
  refine ⟨fun none => by simp [none], fun empty => List.eq_nil_iff_forall_not_mem.mpr ?_⟩
  intro group listed
  obtain ⟨some, parts⟩ := ne_nil_of_mem_splitAlternation listed
  obtain ⟨part, own⟩ := List.exists_mem_of_ne_nil _ some
  exact parts part own (empty part (List.mem_flatten_of_mem listed own))

def Leaf.asked (leaf : Leaf) : String := leaf.value.plain?.getD ""

namespace Alternation

def partLeaf (part : List Char) : Leaf :=
  .keyword .contains (.text (String.ofList part)) {}

@[simp] theorem asked_partLeaf (part : List Char) :
    (partLeaf part).asked = String.ofList part := rfl

/-- The words of a search with a clause for each text that is asked for. -/
def wording (orWord andWord : String) (clause : String → String) : Wording where
  connective
    | .and => andWord
    | .or => orWord
  negation := "NOT"
  clause leaf := clause leaf.asked

/-- A condition with a given text asks for all parts of one of some groups. -/
structure AsksFor (wording : Wording) (groups : List (List (List Char))) (text : String)
    (search : Operand) : Prop where
  text : search.text wording = text
  value : ∀ truth, search.value truth =
    groups.any fun parts => parts.all fun part => truth (partLeaf part)

variable (orWord andWord : String) (clause : String → String)

/-- The text of the search for all of some parts. -/
def groupText (parts : List (List Char)) : String :=
  "(" ++ join (" " ++ andWord ++ " ") (parts.map fun part => clause (String.ofList part)) ++ ")"

/-- The text of the search for one of some groups. -/
def choiceText : List String → String
  | [only] => only
  | several => "(" ++ join (" " ++ orWord ++ " ") several ++ ")"

theorem alternationContains_eq (text : String) :
    alternationContains text orWord andWord clause =
      choiceText orWord ((splitAlternation text.toList).map (groupText andWord clause)) := rfl

/-- Parts are asked for by a condition whose clauses are joined by AND. -/
theorem exists_asksFor_group {parts : List (List Char)} (some : parts ≠ []) :
    ∃ search, AsksFor (wording orWord andWord clause) [parts] (groupText andWord clause parts)
      search := by
  obtain ⟨first, others, rfl⟩ := List.exists_cons_of_ne_nil some
  let condition : Infix :=
    ⟨.and, .clause (partLeaf first), others.map fun part => .clause (partLeaf part)⟩
  refine ⟨condition.enclosed, ?_, fun truth => ?_⟩
  · simp [condition, Infix.text, Infix.operands, groupText, Operand.text, wording,
      Function.comp_def]
  · simp [condition, Infix.value, Infix.operands, Operand.value, Connective.valueOf,
      Function.comp_def]

/-- Groups are asked for by one condition each. -/
theorem exists_searches {groups : List (List (List Char))} (each : ∀ parts ∈ groups, parts ≠ []) :
    ∃ searches : List Operand,
      searches.map (Operand.text (wording orWord andWord clause)) =
        groups.map (groupText andWord clause) ∧
      ∀ truth, searches.map (Operand.value truth) =
        groups.map fun parts => parts.all fun part => truth (partLeaf part) := by
  induction groups with
  | nil => exact ⟨[], rfl, fun _ => rfl⟩
  | cons parts others ih =>
    obtain ⟨some, rest⟩ := List.forall_mem_cons.mp each
    obtain ⟨first, asks⟩ := exists_asksFor_group orWord andWord clause some
    obtain ⟨searches, texts, values⟩ := ih rest
    refine ⟨first :: searches, ?_, fun truth => ?_⟩
    · rw [List.map_cons, List.map_cons, asks.text, texts]
    · rw [List.map_cons, List.map_cons, asks.value, values]
      simp

/-- Conditions of which one has to hold are a condition. -/
theorem exists_choice {searches : List Operand} (some : searches ≠ []) :
    ∃ search : Operand,
      search.text (wording orWord andWord clause) =
        choiceText orWord (searches.map (Operand.text (wording orWord andWord clause))) ∧
      ∀ truth, search.value truth = (searches.map (Operand.value truth)).any id := by
  rcases searches with _ | ⟨first, _ | ⟨second, others⟩⟩
  · contradiction
  · exact ⟨first, rfl, fun truth => by simp⟩
  · let condition : Infix := ⟨.or, first, second :: others⟩
    refine ⟨condition.enclosed, ?_, fun truth => ?_⟩
    · rw [Infix.text_enclosed]
      rfl
    · rw [Infix.value_enclosed]
      rfl

/-- Where there is a group, the search for an alternation is a condition that asks for all parts of
one of the groups. -/
theorem exists_asksFor {text : String} (some : splitAlternation text.toList ≠ []) :
    ∃ search, AsksFor (wording orWord andWord clause) (splitAlternation text.toList)
      (alternationContains text orWord andWord clause) search := by
  have each : ∀ parts ∈ splitAlternation text.toList, parts ≠ [] :=
    fun parts member => (ne_nil_of_mem_splitAlternation member).1
  obtain ⟨searches, texts, values⟩ := exists_searches orWord andWord clause each
  have several : searches ≠ [] := by
    rintro rfl
    exact some (List.map_eq_nil_iff.mp texts.symm)
  obtain ⟨search, written, value⟩ := exists_choice orWord andWord clause several
  refine ⟨search, ?_, fun truth => ?_⟩
  · rw [written, texts, alternationContains_eq]
  · rw [value, values, List.any_map]
    rfl

end Alternation

theorem occurs_iff (piece text : List Char) : occurs piece text = true ↔ piece <:+: text := by
  induction text with
  | nil => simp [occurs]
  | cons c rest ih =>
    rw [occurs, Bool.or_eq_true, ih, List.isPrefixOf_iff_prefix,
      List.infix_cons_iff]

/-- Whether a leaf asks for a text that occurs in a subject. -/
def Leaf.occursIn (subject : List Char) (leaf : Leaf) : Bool :=
  occurs leaf.asked.toList subject

/-- What a search asks for is found in a subject if all parts of one group are. -/
theorem Alternation.AsksFor.found_iff {wording : Wording} {groups : List (List (List Char))}
    {text : String} {search : Operand} (asks : AsksFor wording groups text search)
    (subject : List Char) :
    search.value (Leaf.occursIn subject) = true ↔
      ∃ group ∈ groups, ∀ part ∈ group, part <:+: subject := by
  simp [asks.value, Leaf.occursIn, occurs_iff]

section Plain

variable {text : List Char} (plain : '\\' ∉ text) {alternative : List Char}
include plain

/-- An alternative with a character other than the star has a group of its pieces. -/
theorem exists_group_of_plain (member : alternative ∈ text.splitOn '|')
    (visible : ∃ c ∈ alternative, c ≠ '*') :
    ∃ group ∈ splitAlternation text, ∀ part ∈ group, part ∈ alternative.splitOn '*' := by
  obtain ⟨c, inside, other⟩ := visible
  rw [← splitUnescaped_eq '|' plain] at member
  have free : '\\' ∉ alternative := fun backslash =>
    plain (mem_of_mem_splitUnescaped (by decide) member backslash)
  rw [← splitUnescaped_eq '*' free]
  exact exists_group member inside other

/-- If the pieces of such an alternative occur in order, all parts of its group occur. -/
theorem exists_found_group (member : alternative ∈ text.splitOn '|')
    (visible : ∃ c ∈ alternative, c ≠ '*') {subject : List Char}
    (ordered : OccurInOrder (alternative.splitOn '*') subject) :
    ∃ group ∈ splitAlternation text, ∀ part ∈ group, part <:+: subject := by
  obtain ⟨group, own, pieces⟩ := exists_group_of_plain plain member visible
  exact ⟨group, own, fun part inside => ordered.isInfix part (pieces part inside)⟩

end Plain

/-- The search for an alternation misses nothing. In a text without backslashes whose alternatives
all have a character other than the star, let the pieces of an alternative occur in a subject one
behind the other. Then all parts of one of the groups are in the subject. So the condition that is
written for the alternation, which holds exactly if that is so, holds of every subject in which one
of the alternatives is found. -/
theorem alternationContains_misses_nothing (text orWord andWord : String)
    (clause : String → String) (plain : '\\' ∉ text.toList)
    (visible : ∀ alternative ∈ text.toList.splitOn '|', ∃ c ∈ alternative, c ≠ '*') :
    (∀ subject, (∃ alternative ∈ text.toList.splitOn '|',
        OccurInOrder (alternative.splitOn '*') subject) →
      ∃ group ∈ splitAlternation text.toList, ∀ part ∈ group, part <:+: subject) ∧
    ∃ search : Operand,
      search.text (Alternation.wording orWord andWord clause) =
        alternationContains text orWord andWord clause ∧
      ∀ subject,
        (search.value (Leaf.occursIn subject) = true ↔
          ∃ group ∈ splitAlternation text.toList, ∀ part ∈ group, part <:+: subject) ∧
        ((∃ alternative ∈ text.toList.splitOn '|',
            Operator.contains.Holds (.pattern (String.ofList alternative) true) (some subject)) →
          search.value (Leaf.occursIn subject) = true) := by
  have found : ∀ subject, (∃ alternative ∈ text.toList.splitOn '|',
      OccurInOrder (alternative.splitOn '*') subject) →
      ∃ group ∈ splitAlternation text.toList, ∀ part ∈ group, part <:+: subject := by
    rintro subject ⟨alternative, member, ordered⟩
    exact exists_found_group plain member (visible alternative member) ordered
  have some : splitAlternation text.toList ≠ [] := by
    obtain ⟨alternative, member⟩ :=
      List.exists_mem_of_ne_nil _ (List.splitOn_ne_nil '|' text.toList)
    obtain ⟨group, own, _⟩ := exists_group_of_plain plain member (visible alternative member)
    exact List.ne_nil_of_mem own
  obtain ⟨search, asks⟩ := Alternation.exists_asksFor orWord andWord clause some
  refine ⟨found, search, asks.text, fun subject => ⟨asks.found_iff subject, ?_⟩⟩
  rintro ⟨alternative, member, holds⟩
  exact (asks.found_iff subject).mpr
    (found subject ⟨alternative, member, (holds_contains_iff alternative subject).mp holds⟩)

/-- The theorem at `abc|de*f`: the parts of the second alternative stand in order in `xdeyfz`, and
its group is found there. In `xfdez`, where they do not, the search finds it, too. -/
theorem alternationContains_misses_nothing_star :
    let text := "abc|de*f"
    let clause (part : String) := "f CONTAINS \"" ++ part ++ "\""
    '\\' ∉ text.toList ∧
    (∀ alternative ∈ text.toList.splitOn '|', ∃ c ∈ alternative, c ≠ '*') ∧
    OccurInOrder ("de*f".toList.splitOn '*') "xdeyfz".toList ∧
    alternationContains text "OR" "AND" clause =
      "((f CONTAINS \"abc\") OR (f CONTAINS \"de\" AND f CONTAINS \"f\"))" ∧
    ∃ search : Operand,
      search.text (Alternation.wording "OR" "AND" clause) =
        "((f CONTAINS \"abc\") OR (f CONTAINS \"de\" AND f CONTAINS \"f\"))" ∧
      search.value (Leaf.occursIn "xdeyfz".toList) = true ∧
      search.value (Leaf.occursIn "xfdez".toList) = true ∧
      search.value (Leaf.occursIn "abdf".toList) = false := by
  intro text clause
  have alternatives : text.toList.splitOn '|' = ["abc".toList, "de*f".toList] := by decide
  have groups : splitAlternation text.toList =
      [["abc".toList], ["de".toList, "f".toList]] := by decide
  have plain : '\\' ∉ text.toList := by decide
  have visible : ∀ alternative ∈ text.toList.splitOn '|', ∃ c ∈ alternative, c ≠ '*' := by
    rw [alternatives]
    simp
  have ordered : OccurInOrder ("de*f".toList.splitOn '*') "xdeyfz".toList :=
    ⟨['x'], "yfz".toList, by decide, ['y'], ['z'], by decide, trivial⟩
  obtain ⟨found, search, written, accepts⟩ :=
    alternationContains_misses_nothing text "OR" "AND" clause plain visible
  have own : alternationContains text "OR" "AND" clause =
      "((f CONTAINS \"abc\") OR (f CONTAINS \"de\" AND f CONTAINS \"f\"))" := by
    rw [Alternation.alternationContains_eq, groups]
    decide
  refine ⟨plain, visible, ordered, own, search, written.trans own, ?_, ?_, ?_⟩
  · exact (accepts _).1.mpr (found _ ⟨"de*f".toList, by simp [alternatives], ordered⟩)
  · rw [(accepts _).1, groups]
    exact ⟨_, List.mem_cons_of_mem _ List.mem_cons_self, by decide⟩
  · rw [Bool.eq_false_iff, ne_eq, (accepts _).1, groups]
    decide

end Detection

import Detection.Proofs.SigmaGrammar
import Detection.Proofs.SigmaMeaning

/-!
# Drafts of Sigma rules

A draft numbers its blocks. A name is a stem with a number, and no word of a condition, so
it can stand in one; and since numbers are never given twice, a later block never takes
the name of an earlier one. What a part of a writer adds to a draft is described by the
expressions over the names of the new blocks and by their values: these values stay the
same whatever is added behind.
-/
namespace Detection.Sigma

open Text

variable {before after : Draft} {stem name : String} {values : (Atom → Bool) → List Bool} {α β : Type}

def stems : List String := ["selection", "keyword"]

theorem isBlank_digit {c : Char} (digit : c.isDigit = true) :
    isBlank c = false ∧ c ≠ '(' ∧ c ≠ ')' := by
  have bounds : 48 ≤ c.toNat ∧ c.toNat < 58 := by
    simp only [Char.isDigit, Bool.and_eq_true, decide_eq_true_eq, ge_iff_le,
      UInt32.le_iff_toNat_le, Char.toNat_val, Char.reduceVal, UInt32.reduceToNat] at digit
    omega
  have codes : ∀ code < 58, 48 ≤ code → isBlank (Char.ofNat code) = false ∧
      Char.ofNat code ≠ '(' ∧ Char.ofNat code ≠ ')' := by decide
  have own := codes c.toNat bounds.2 bounds.1
  rwa [Char.ofNat_toNat] at own

/-- A stem with a number has neither blanks nor parentheses in it. -/
theorem isBlank_numbered (listed : stem ∈ stems) (number : Nat) :
    ∀ c ∈ (stem ++ toString number).toList, isBlank c = false ∧ c ≠ '(' ∧ c ≠ ')' := by
  intro c belongs
  rw [String.toList_append, List.mem_append] at belongs
  rcases belongs with letter | digit
  · have letters : stems.all fun stem =>
        stem.toList.all fun c => !isBlank c && c != '(' && c != ')' := rfl
    have own := List.all_eq_true.mp (List.all_eq_true.mp letters stem listed) c letter
    simpa [and_assoc] using own
  · rw [Nat.toString_eq_repr, Nat.toList_repr] at digit
    exact isBlank_digit (Nat.isDigit_of_mem_toDigits (by decide) (by decide) digit)

/-- A word that starts differently from all words of a condition is a name. -/
theorem termOf_name {first : Char} {rest : List Char} (spelt : name.toList = first :: rest)
    (other : lowerChar first ∉ ['a', 'o', 'n', '(', ')']) : termOf name = .name name := by
  have differs : ∀ c ∈ ['a', 'o', 'n', '(', ')'], ∀ more,
      lower name ≠ String.ofList (c :: more) := by
    intro c listed more same
    rw [lower, spelt, List.map_cons, String.ofList_inj] at same
    exact other ((List.cons.inj same).1 ▸ listed)
  rw [termOf]
  split
  · next word => exact absurd word (differs 'a' (by simp) ['n', 'd'])
  · next word => exact absurd word (differs 'o' (by simp) ['r'])
  · next word => exact absurd word (differs 'n' (by simp) ['o', 't'])
  · next word => exact absurd word (differs '(' (by simp) [])
  · next word => exact absurd word (differs ')' (by simp) [])
  · rfl

/-- A word that starts with neither a digit nor an `a` is no quantifier. -/
theorem isQuantifier_name {first : Char} {rest : List Char} (spelt : name.toList = first :: rest)
    (letter : first.isDigit = false) (other : foldKey first ≠ 'a') : isQuantifier name = false := by
  have word : "all".toList.map foldKey = ['a', 'l', 'l'] := by decide
  have folded : equalFold name "all" = false := by
    rw [equalFold, spelt, word]
    simp [other]
  simp [isQuantifier, folded, spelt, letter]

/-- A stem with a number is a name. -/
theorem written_numbered (listed : stem ∈ stems) (number : Nat) :
    Written 3 (stem ++ toString number) (.name (stem ++ toString number)) := by
  obtain ⟨first, rest, spelt, starts⟩ : ∃ first rest,
      (stem ++ toString number).toList = first :: rest ∧ (first = 's' ∨ first = 'k') := by
    simp only [stems, List.mem_cons, List.not_mem_nil, or_false] at listed
    rcases listed with rfl | rfl
    · exact ⟨'s', _, String.toList_append, .inl rfl⟩
    · exact ⟨'k', _, String.toList_append, .inr rfl⟩
  have inside := isBlank_numbered listed number
  generalize stem ++ toString number = name at *
  have some : name ≠ "" := by
    rintro rfl
    cases spelt
  have words : conditionWords name = [name] := conditionWords_name some inside
  obtain ⟨letter, other, lowered⟩ : first.isDigit = false ∧ foldKey first ≠ 'a' ∧
      lowerChar first ∉ ['a', 'o', 'n', '(', ')'] := by
    rcases starts with rfl | rfl <;> decide
  constructor
  · rw [words, List.forall_mem_singleton]
    exact isQuantifier_name spelt letter other
  · rw [words, List.map_singleton, termOf_name spelt lowered]
    exact .name name

/-- A stem with a number says which stem and which number it is. -/
theorem numbered_inj {other : String} (listed : stem ∈ stems) (otherListed : other ∈ stems)
    {number second : Nat} (same : stem ++ toString number = other ++ toString second) :
    stem = other ∧ number = second := by
  have digits : ∀ stem : String, stem ++ toString number = stem ++ toString second →
      number = second := by
    intro stem same
    have spelt := congrArg String.toList same
    rw [String.toList_append, String.toList_append, List.append_cancel_left_eq,
      Nat.toString_eq_repr, Nat.toString_eq_repr, Nat.toList_repr, Nat.toList_repr] at spelt
    have read := congrArg (Nat.ofDigitChars 10 · 0) spelt
    simpa [Nat.ofDigitChars_toDigits] using read
  have differ : ∀ rest more : String, "selection" ++ rest ≠ "keyword" ++ more := by
    intro rest more same
    have spelt := congrArg String.toList same
    rw [String.toList_append, String.toList_append] at spelt
    cases spelt
  simp only [stems, List.mem_cons, List.not_mem_nil, or_false] at listed otherListed
  rcases listed with rfl | rfl <;> rcases otherListed with rfl | rfl
  · exact ⟨rfl, digits _ same⟩
  · exact absurd same (differ _ _)
  · exact absurd same.symm (differ _ _)
  · exact ⟨rfl, digits _ same⟩

def BlockContent.Keyed : BlockContent → Prop
  | .all entries => (entries.map Entry.key).Nodup
  | _ => True

/-- How many names a draft has given with a stem. -/
def Draft.count (draft : Draft) (stem : String) : Nat :=
  if stem = "keyword" then draft.keywords else draft.selections

/-- A draft whose blocks have the names that it has counted, each name once. -/
structure Draft.Valid (draft : Draft) : Prop where
  named : ∀ name ∈ draft.blocks.map Block.name, ∃ stem ∈ stems, ∃ number < draft.count stem,
    name = stem ++ toString (number + 1)
  distinct : (draft.blocks.map Block.name).Nodup
  keyed : ∀ block ∈ draft.blocks, block.content.Keyed

/-- The next name with a stem is new. -/
theorem Draft.Valid.fresh {draft : Draft} (valid : draft.Valid) (listed : stem ∈ stems) :
    stem ++ toString (draft.count stem + 1) ∉ draft.blocks.map Block.name := by
  intro taken
  obtain ⟨other, otherListed, number, counted, same⟩ := valid.named _ taken
  obtain ⟨rfl, equal⟩ := numbered_inj listed otherListed same
  omega

/-- Whether the block of a name holds. -/
def blockHolds (truth : Atom → Bool) (blocks : List Block) (name : String) : Bool :=
  ((blocks.find? (·.name == name)).map fun block => block.content.holds truth).getD false

/-- A block under a new name answers for it, whatever comes behind. -/
theorem blockHolds_fresh {blocks : List Block} (fresh : name ∉ blocks.map Block.name)
    (content : BlockContent) (later : List Block) (truth : Atom → Bool) :
    blockHolds truth (blocks ++ [⟨name, content⟩] ++ later) name = content.holds truth := by
  have before : blocks.find? (·.name == name) = none := by
    rw [List.find?_eq_none]
    intro block belongs same
    exact fresh (List.mem_map.mpr ⟨block, belongs, by simpa using same⟩)
  simp [blockHolds, List.find?_append, before]

/-- What writing has added to a draft: blocks with the names of some expressions, in
their order. With them, and whatever comes behind, the expressions have their values. -/
structure Adds (before after : Draft) (expressions : List Expression)
    (values : (Atom → Bool) → List Bool) : Prop where
  valid : after.Valid
  blocks : ∃ added, after.blocks = before.blocks ++ added ∧
    added.map Block.name = expressions.flatMap Expression.names
  value : ∀ truth later,
    expressions.map (Expression.value (blockHolds truth (after.blocks ++ later))) = values truth

namespace Adds

theorem nothing {draft : Draft} (valid : draft.Valid) : Adds draft draft [] fun _ => [] :=
  ⟨valid, ⟨[], by simp⟩, fun _ _ => rfl⟩

/-- Every expression has a value. -/
theorem length {expressions : List Expression} (adds : Adds before after expressions values)
    (truth : Atom → Bool) : expressions.length = (values truth).length := by
  rw [← adds.value truth [], List.length_map]

/-- What is added later leaves alone what was there. -/
theorem append {middle : Draft} {first second : List Expression}
    {others : (Atom → Bool) → List Bool} (adds : Adds before middle first values)
    (addsLater : Adds middle after second others) :
    Adds before after (first ++ second) fun truth => values truth ++ others truth := by
  obtain ⟨added, blocks, names⟩ := adds.blocks
  obtain ⟨addedLater, blocksLater, namesLater⟩ := addsLater.blocks
  refine ⟨addsLater.valid, ⟨added ++ addedLater, ?_, ?_⟩, fun truth later => ?_⟩
  · rw [blocksLater, blocks, List.append_assoc]
  · rw [List.map_append, names, namesLater, List.flatMap_append]
  · have earlier := adds.value truth (addedLater ++ later)
    rw [← List.append_assoc, ← blocksLater] at earlier
    rw [List.map_append, earlier, addsLater.value truth later]

/-- An expression behind NOT. -/
theorem negated {expression : Expression} {value : (Atom → Bool) → Bool}
    (adds : Adds before after [expression] fun truth => [value truth]) :
    Adds before after [.not expression] fun truth => [!value truth] := by
  obtain ⟨added, blocks, names⟩ := adds.blocks
  refine ⟨adds.valid, ⟨added, blocks, names⟩, fun truth later => ?_⟩
  have same := List.singleton_inj.mp (adds.value truth later)
  rw [List.map_singleton, Expression.value, same]

/-- Expressions that are joined. -/
theorem joined {expressions : List Expression} (adds : Adds before after expressions values)
    {connective : Connective} {expression : Expression}
    (names : expression.names = expressions.flatMap Expression.names)
    (value : ∀ holds, expression.value holds =
      connective.valueOf (expressions.map (Expression.value holds))) :
    Adds before after [expression] fun truth => [connective.valueOf (values truth)] := by
  obtain ⟨added, blocks, same⟩ := adds.blocks
  refine ⟨adds.valid, ⟨added, blocks, ?_⟩, fun truth later => ?_⟩
  · simpa [names] using same
  · rw [List.map_singleton, value, adds.value truth later]

/-- A block under the next name with a stem, which is counted. -/
theorem block (valid : before.Valid) (listed : stem ∈ stems) {content : BlockContent}
    (keyed : content.Keyed) (blocks : after.blocks =
      before.blocks ++ [⟨stem ++ toString (before.count stem + 1), content⟩])
    (counted : before.count stem < after.count stem)
    (kept : ∀ other, before.count other ≤ after.count other) :
    Adds before after [.name (stem ++ toString (before.count stem + 1))]
      fun truth => [content.holds truth] := by
  have fresh := valid.fresh listed
  have last : ∃ other ∈ stems, ∃ number < after.count other,
      stem ++ toString (before.count stem + 1) = other ++ toString (number + 1) :=
    ⟨stem, listed, before.count stem, counted, rfl⟩
  generalize stem ++ toString (before.count stem + 1) = name at *
  have names : after.blocks.map Block.name = before.blocks.map Block.name ++ [name] := by
    rw [blocks, List.map_append]
    rfl
  refine ⟨⟨?_, ?_, ?_⟩, ⟨[⟨name, content⟩], blocks, rfl⟩, fun truth later => ?_⟩
  · rw [names, List.forall_mem_append, List.forall_mem_singleton]
    refine ⟨fun taken belongs => ?_, last⟩
    obtain ⟨other, otherListed, number, bound, same⟩ := valid.named taken belongs
    exact ⟨other, otherListed, number, Nat.lt_of_lt_of_le bound (kept other), same⟩
  · rw [names, List.nodup_append]
    refine ⟨valid.distinct, by simp, fun taken belongs other same => ?_⟩
    rintro rfl
    exact fresh (List.mem_singleton.mp same ▸ belongs)
  · rw [blocks, List.forall_mem_append, List.forall_mem_singleton]
    exact ⟨valid.keyed, keyed⟩
  · rw [blocks, List.map_singleton, Expression.value, blockHolds_fresh fresh]

end Adds

/-- A new block of comparisons is asked by its name. -/
theorem newSelection_adds (valid : before.Valid) {content : BlockContent} (keyed : content.Keyed)
    (done : (newSelection content).run before = .ok (name, after)) :
    Written 3 name (.name name) ∧
      Adds before after [.name name] fun truth => [content.holds truth] := by
  cases done
  have listed : "selection" ∈ stems := by simp [stems]
  refine ⟨written_numbered listed _, .block valid listed keyed rfl (Nat.lt_succ_self _) ?_⟩
  intro other
  simp only [Draft.count]
  split <;> omega

/-- A new block of words is asked by its name. -/
theorem newKeywords_adds (valid : before.Valid) {items : List Item}
    (done : (newKeywords items).run before = .ok (name, after)) :
    Written 3 name (.name name) ∧
      Adds before after [.name name]
        fun truth => [Item.anyOf (fun item => truth (.word item)) items] := by
  cases done
  have listed : "keyword" ∈ stems := by simp [stems]
  have keyed : (BlockContent.keywords items).Keyed := trivial
  refine ⟨written_numbered listed _, .block valid listed keyed rfl (Nat.lt_succ_self _) ?_⟩
  intro other
  simp only [Draft.count]
  split <;> omega

/-- Writing in two steps. -/
theorem run_bind {step : Writing α} {next : α → Writing β} {result : β}
    (done : (step >>= next).run before = .ok (result, after)) :
    ∃ middle draft, step.run before = .ok (middle, draft) ∧
      (next middle).run draft = .ok (result, after) := by
  rw [StateT.run_bind] at done
  obtain ⟨⟨middle, draft⟩, first, second⟩ := exists_of_bind done
  exact ⟨middle, draft, first, second⟩

/-- A result that is there already. -/
theorem run_pure {given result : α}
    (done : (pure given : Writing α).run before = .ok (result, after)) :
    given = result ∧ before = after :=
  Prod.mk.inj (Except.ok.inj done)

/-- A step whose result is put into a form. -/
theorem run_bind_pure {step : Writing α} {form : α → β} {result : β}
    (done : (step >>= fun middle => pure (form middle)).run before = .ok (result, after)) :
    ∃ middle, form middle = result ∧ step.run before = .ok (middle, after) := by
  obtain ⟨middle, draft, first, last⟩ := run_bind done
  obtain ⟨same, rfl⟩ := run_pure last
  exact ⟨middle, same, first⟩

/-- What needs no draft leaves the draft as it is. -/
theorem run_lift_bind {step : Except RenderError α} {next : α → Writing β} {result : β}
    (done : ((liftM step : Writing α) >>= next).run before = .ok (result, after)) :
    ∃ middle, step = .ok middle ∧ (next middle).run before = .ok (result, after) := by
  cases step with
  | error => cases done
  | ok middle => exact ⟨middle, rfl, done⟩

end Detection.Sigma

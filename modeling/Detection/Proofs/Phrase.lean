import Detection.Proofs.TreeValue

/-!
# How a flat query is read

A phrase is the structure of one scope as its tokens write it: connectives, leaves
and parenthesised scopes one behind another, each operand with the NOTs in front of
it. A phrase may have connectives in places where they join nothing, and scopes
without any leaf.

The reading of a phrase folds its operands strictly from left to right. Each is
joined to what stands before it by the last connective since the previous operand,
and by AND if there is none. A scope without leaves is no operand and leaves the
connective for the next one. The reading speaks of truth values only. Beside it
stands the chain of trees that the compiler builds from the same phrase; that the
two agree is what this module proves.
-/
namespace Detection

/-- One scope of a flat query. -/
inductive Phrase
  | done
  | word (connective : Connective) (rest : Phrase)
  | leaf (negations : Nat) (content : Leaf) (rest : Phrase)
  | scope (negations : Nat) (inner rest : Phrase)
  deriving Repr

namespace Phrase

def tokens : Phrase → List Token
  | done => []
  | word connective rest => connective.token :: rest.tokens
  | leaf negations content rest =>
    List.replicate negations .not ++ .leaf content :: rest.tokens
  | scope negations inner rest =>
    List.replicate negations .not ++ .opening :: (inner.tokens ++ .closing :: rest.tokens)

/-- The leaves of a phrase from left to right. -/
def leaves : Phrase → List Leaf
  | done => []
  | word _ rest => rest.leaves
  | leaf _ content rest => content :: rest.leaves
  | scope _ inner rest => inner.leaves ++ rest.leaves

/-- The value of what has been read with one more operand. The connective in front
of the first operand joins nothing. -/
def joinValue (before : Option Bool) (pending : Option Connective) (operand : Bool) : Bool :=
  match before with
  | none => operand
  | some value => (pending.getD .and).apply value operand

/-- Read a phrase behind operands with the value `before`, when `pending` is the
last connective since the previous operand. There is no value without an operand. -/
def valueFrom (truth : Leaf → Bool) (before : Option Bool) (pending : Option Connective) :
    Phrase → Option Bool
  | done => before
  | word connective rest => rest.valueFrom truth before (some connective)
  | leaf negations content rest =>
    rest.valueFrom truth
      (some (joinValue before pending (negatedValue negations (truth content)))) none
  | scope negations inner rest =>
    match inner.valueFrom truth none none with
    | some value =>
      rest.valueFrom truth (some (joinValue before pending (negatedValue negations value))) none
    | none => rest.valueFrom truth before pending

/-- The value of a whole phrase, if it has an operand. -/
def value? (truth : Leaf → Bool) (phrase : Phrase) : Option Bool :=
  phrase.valueFrom truth none none

/-- The chain of operands behind a phrase and the connective that still waits. There
is none if a NOT stands in front of a scope without operands. -/
def chainFrom (chain : Chain) (pending : Option Connective) :
    Phrase → Option (Chain × Option Connective)
  | done => some (chain, pending)
  | word connective rest => rest.chainFrom chain (some connective)
  | leaf negations content rest =>
    rest.chainFrom
      (chain.add (pending.getD .and) (Tree.negatedTimes negations (.leaf content))) none
  | scope negations inner rest =>
    match inner.chainFrom .empty none with
    | none => none
    | some (innerChain, _) =>
      match innerChain.tree? with
      | some operand =>
        rest.chainFrom (chain.add (pending.getD .and) (operand.negatedTimes negations)) none
      | none => if negations = 0 then rest.chainFrom chain pending else none

end Phrase

namespace Chain

/-- The value of a chain, if it has an operand. -/
def value? (truth : Leaf → Bool) (chain : Chain) : Option Bool :=
  chain.tree?.map (Tree.value truth)

/-- The leaves of a chain from left to right. -/
def leaves : Chain → List Leaf
  | empty => []
  | lone operand => operand.leaves
  | joined _ operands => operands.flatMap Tree.leaves

/-- What a chain promises about its operands. -/
def Inner : Chain → Prop
  | empty => True
  | lone operand => operand.Inner
  | joined _ operands => 2 ≤ operands.length ∧ ∀ operand ∈ operands, operand.Inner

/-- Whether the chain is extended or becomes the first member of a new group, its
value is joined with that of the operand. -/
theorem value_add (truth : Leaf → Bool) (chain : Chain) (pending : Option Connective)
    (operand : Tree) :
    (chain.add (pending.getD .and) operand).value? truth =
      some (Phrase.joinValue (chain.value? truth) pending (operand.value truth)) := by
  generalize pending.getD .and = connective, pendingIs : pending.getD .and = connective
  cases chain with
  | empty => rfl
  | lone =>
    cases connective <;>
      simp [add, value?, tree?, Phrase.joinValue, pendingIs, Connective.kind, Connective.apply]
  | joined previous operands =>
    by_cases same : previous = connective
    · subst same
      cases previous <;>
        simp [add, value?, tree?, Phrase.joinValue, pendingIs, Connective.kind, Connective.apply]
    · cases previous <;> cases connective <;>
        simp_all [add, value?, tree?, Phrase.joinValue, Connective.kind, Connective.apply]

/-- An operand is added behind the leaves that are there. -/
theorem leaves_add (chain : Chain) (connective : Connective) (operand : Tree) :
    (chain.add connective operand).leaves = chain.leaves ++ operand.leaves := by
  cases chain with
  | empty => rfl
  | lone => simp [add, leaves]
  | joined previous =>
    by_cases same : previous = connective <;> simp [add, leaves, same]

/-- A chain with an added operand has a tree. -/
theorem tree_add_ne_none (chain : Chain) (connective : Connective) (operand : Tree) :
    (chain.add connective operand).tree? ≠ none := by
  cases chain with
  | empty | lone => simp [add, tree?]
  | joined previous =>
    by_cases same : previous = connective <;> simp [add, tree?, same]

/-- A chain stays one of operands of the compiled shape. Where the connective
changes, the operands so far are at least two and make a group. -/
theorem Inner.add {chain : Chain} (inner : chain.Inner) (connective : Connective)
    {operand : Tree} (operandInner : operand.Inner) : (chain.add connective operand).Inner := by
  have last : ∀ member ∈ [operand], member.Inner := by simpa using operandInner
  cases chain with
  | empty => exact operandInner
  | lone => exact ⟨by simp, List.forall_mem_cons.mpr ⟨inner, last⟩⟩
  | joined previous operands =>
    obtain ⟨several, each⟩ := inner
    by_cases same : previous = connective
    · have length : 2 ≤ (operands ++ [operand]).length := by
        rw [List.length_append]
        omega
      simp only [Chain.add, same, ↓reduceIte]
      exact ⟨length, List.forall_mem_append.mpr ⟨each, last⟩⟩
    · have group := Tree.Inner.joined previous operands several each
      simp only [Chain.add, same, ↓reduceIte]
      exact ⟨by simp, List.forall_mem_cons.mpr ⟨group, last⟩⟩

theorem Inner.tree {chain : Chain} (inner : chain.Inner) {tree : Tree}
    (finished : chain.tree? = some tree) : tree.Inner := by
  cases chain with
  | empty => simp [tree?] at finished
  | lone => exact Option.some.inj finished ▸ inner
  | joined connective operands =>
    exact Option.some.inj finished ▸ .joined connective operands inner.1 inner.2

theorem leaves_tree {chain : Chain} {tree : Tree} (finished : chain.tree? = some tree) :
    tree.leaves = chain.leaves := by
  cases chain with
  | empty => simp [tree?] at finished
  | lone => exact Option.some.inj finished ▸ rfl
  | joined =>
    rw [← Option.some.inj finished]
    exact Tree.leaves_group _ _

theorem leaves_of_tree_none {chain : Chain} (unfinished : chain.tree? = none) :
    chain.leaves = [] := by
  cases chain with
  | empty => rfl
  | lone | joined => simp [tree?] at unfinished

/-- A chain without a tree has no value. -/
theorem value_of_tree_none (truth : Leaf → Bool) {chain : Chain}
    (unfinished : chain.tree? = none) : chain.value? truth = none := by
  simp [value?, unfinished]

end Chain

namespace Phrase

/-- The chain that the compiler builds has the value of the reading. The induction
follows the phrase; a scope inside is read from the empty chain, so that its own
hypothesis applies to it. -/
theorem chainFrom_value (truth : Leaf → Bool) (phrase : Phrase) (chain last : Chain)
    (pending waiting : Option Connective)
    (built : phrase.chainFrom chain pending = some (last, waiting)) :
    last.value? truth = phrase.valueFrom truth (chain.value? truth) pending := by
  induction phrase generalizing chain last pending waiting with
  | done =>
    cases built
    rfl
  | word connective rest ih =>
    exact ih chain last (some connective) waiting built
  | leaf negations content rest ih =>
    have value := ih _ last none waiting built
    rw [value, Chain.value_add, Tree.value_negatedTimes, Tree.value_leaf]
    rfl
  | scope negations inner rest ihInner ihRest =>
    simp only [chainFrom] at built
    split at built
    · contradiction
    · next innerChain innerWaiting innerBuilt =>
      have innerValue := ihInner .empty innerChain none innerWaiting innerBuilt
      have emptyValue : Chain.empty.value? truth = none := rfl
      rw [emptyValue] at innerValue
      simp only [valueFrom, ← innerValue]
      split at built
      · next operand finished =>
        have value := ihRest _ last none waiting built
        have operandValue : innerChain.value? truth = some (operand.value truth) := by
          simp [Chain.value?, finished]
        rw [value, Chain.value_add, Tree.value_negatedTimes, operandValue]
      · next unfinished =>
        rw [Chain.value_of_tree_none truth unfinished]
        split at built
        · exact ihRest chain last pending waiting built
        · contradiction

/-- Building a chain keeps all leaves in order. -/
theorem chainFrom_leaves (phrase : Phrase) (chain last : Chain)
    (pending waiting : Option Connective)
    (built : phrase.chainFrom chain pending = some (last, waiting)) :
    last.leaves = chain.leaves ++ phrase.leaves := by
  induction phrase generalizing chain last pending waiting with
  | done =>
    cases built
    simp [leaves]
  | word connective rest ih =>
    exact ih chain last (some connective) waiting built
  | leaf negations content rest ih =>
    have rest := ih _ last none waiting built
    simp [rest, Chain.leaves_add, Tree.leaves_negatedTimes, leaves]
  | scope negations inner rest ihInner ihRest =>
    simp only [chainFrom] at built
    split at built
    · contradiction
    · next innerChain innerWaiting innerBuilt =>
      have innerLeaves : innerChain.leaves = inner.leaves :=
        ihInner .empty innerChain none innerWaiting innerBuilt
      split at built
      · next operand finished =>
        have rest := ihRest _ last none waiting built
        simp [rest, Chain.leaves_add, Tree.leaves_negatedTimes, Chain.leaves_tree finished,
          innerLeaves, leaves]
      · next unfinished =>
        have noLeaves : inner.leaves = [] :=
          innerLeaves.symm.trans (Chain.leaves_of_tree_none unfinished)
        split at built
        · simpa [leaves, noLeaves] using ihRest chain last pending waiting built
        · contradiction

/-- Building a chain keeps the shape of its operands. -/
theorem chainFrom_inner (phrase : Phrase) (chain last : Chain)
    (pending waiting : Option Connective) (inner : chain.Inner)
    (built : phrase.chainFrom chain pending = some (last, waiting)) : last.Inner := by
  induction phrase generalizing chain last pending waiting with
  | done =>
    cases built
    exact inner
  | word connective rest ih =>
    exact ih chain last (some connective) waiting inner built
  | leaf negations content rest ih =>
    have operand : (Tree.negatedTimes negations (.leaf content)).Inner :=
      (Tree.Inner.leaf content).negatedTimes negations
    exact ih _ last none waiting (inner.add _ operand) built
  | scope negations scope rest ihInner ihRest =>
    simp only [chainFrom] at built
    split at built
    · contradiction
    · next innerChain innerWaiting innerBuilt =>
      have innerShape : innerChain.Inner :=
        ihInner .empty innerChain none innerWaiting trivial innerBuilt
      split at built
      · next operand finished =>
        have operandShape : (operand.negatedTimes negations).Inner :=
          (innerShape.tree finished).negatedTimes negations
        exact ihRest _ last none waiting (inner.add _ operandShape) built
      · split at built
        · exact ihRest chain last pending waiting inner built
        · contradiction

/-- Whether an operand stands at the beginning of a phrase. -/
def startsOperand : Phrase → Prop
  | done | word .. => False
  | leaf .. | scope .. => True

/-- The phrase with one more NOT in front of the operand at its beginning. -/
def negated : Phrase → Phrase
  | leaf negations content rest => leaf (negations + 1) content rest
  | scope negations inner rest => scope (negations + 1) inner rest
  | other => other

theorem tokens_negated {phrase : Phrase} (starts : phrase.startsOperand) :
    phrase.negated.tokens = .not :: phrase.tokens := by
  cases phrase with
  | done | word => exact starts.elim
  | leaf | scope => simp [negated, tokens, List.replicate_succ]

theorem startsOperand_negated {phrase : Phrase} (starts : phrase.startsOperand) :
    phrase.negated.startsOperand := by
  cases phrase with
  | done | word => exact starts.elim
  | leaf | scope => trivial

theorem leaves_tokens (phrase : Phrase) : phrase.tokens.filterMap Token.leaf? = phrase.leaves := by
  have noLeaf (count : Nat) : (List.replicate count Token.not).filterMap Token.leaf? = [] := by
    simp [Token.leaf?]
  induction phrase with
  | done => rfl
  | word connective rest ih =>
    cases connective <;>
      simpa [tokens, leaves, Connective.token, Token.leaf?, List.filterMap_cons]
        using ih
  | leaf negations content rest ih =>
    rw [tokens, List.filterMap_append, noLeaf]
    simp [leaves, Token.leaf?, ih]
  | scope negations inner rest ihInner ihRest =>
    rw [tokens, List.filterMap_append, noLeaf]
    simp [leaves, Token.leaf?, List.filterMap_cons, ihInner, ihRest]

end Phrase

end Detection

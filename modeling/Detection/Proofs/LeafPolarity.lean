import Detection.Proofs.Compilation

/-!
# The NOTs around a leaf

Each leaf of a tree stands under some NOTs, and what the leaf asks for is turned around by an
odd number of them. The tokens of a query tell that number before there is a tree: a NOT waits
for the next leaf or the next parenthesis, and a parenthesis hands the NOTs in front of it on
to everything up to its end. The connectives AND and OR have no part in it, so that it does not
matter which of them a query has, and where.
-/
namespace Detection

theorem negatedValue_not (count : Nat) (value : Bool) :
    negatedValue count (!value) = !negatedValue count value := by
  induction count generalizing value with
  | zero => rfl
  | succ count ih => exact ih (!value)

namespace Tree

mutual

/-- The leaves of a tree from left to right, each with whether an odd number of NOTs stands
around it. The tree itself stands under an odd number of them if `odd` is set. -/
def signedLeaves (odd : Bool) : Tree → List (Bool × Leaf)
  | leaf content => [(odd, content)]
  | group .not members => signedLeavesAll (!odd) members
  | group _ members => signedLeavesAll odd members

def signedLeavesAll (odd : Bool) : List Tree → List (Bool × Leaf)
  | [] => []
  | member :: others => member.signedLeaves odd ++ signedLeavesAll odd others

end

theorem signedLeavesAll_eq (odd : Bool) (members : List Tree) :
    signedLeavesAll odd members = members.flatMap (signedLeaves odd) := by
  induction members with
  | nil => rfl
  | cons member others ih =>
    simp only [signedLeavesAll, List.flatMap_cons, ih]

@[simp] theorem signedLeaves_leaf (odd : Bool) (content : Leaf) :
    (leaf content).signedLeaves odd = [(odd, content)] := rfl

@[simp] theorem signedLeaves_not (odd : Bool) (member : Tree) :
    (group .not [member]).signedLeaves odd = member.signedLeaves (!odd) := by
  simp only [signedLeaves, signedLeavesAll, List.append_nil]

@[simp] theorem signedLeaves_single (odd : Bool) (member : Tree) :
    (group .single [member]).signedLeaves odd = member.signedLeaves odd := by
  simp only [signedLeaves, signedLeavesAll, List.append_nil]

@[simp] theorem signedLeaves_joined (odd : Bool) (connective : Connective) (members : List Tree) :
    (group connective.kind members).signedLeaves odd = members.flatMap (signedLeaves odd) := by
  cases connective <;> simp only [Connective.kind, signedLeaves, signedLeavesAll_eq]

/-- Negations around a tree stand around each of its leaves. -/
theorem signedLeaves_negatedTimes (count : Nat) (odd : Bool) (tree : Tree) :
    (tree.negatedTimes count).signedLeaves odd = tree.signedLeaves (negatedValue count odd) := by
  induction count generalizing tree with
  | zero => rfl
  | succ count ih =>
    rw [negatedTimes, ih, signedLeaves_not, negatedValue, negatedValue_not]

end Tree

namespace Chain

/-- The leaves of a chain from left to right, under the NOTs around the chain. -/
def signedLeaves (odd : Bool) : Chain → List (Bool × Leaf)
  | empty => []
  | lone operand => operand.signedLeaves odd
  | joined _ operands => operands.flatMap (Tree.signedLeaves odd)

/-- An operand is added behind the leaves that are there. -/
theorem signedLeaves_add (chain : Chain) (connective : Connective) (operand : Tree) (odd : Bool) :
    (chain.add connective operand).signedLeaves odd =
      chain.signedLeaves odd ++ operand.signedLeaves odd := by
  cases chain with
  | empty => rfl
  | lone => simp [add, signedLeaves]
  | joined previous =>
    by_cases same : previous = connective <;> simp [add, signedLeaves, same]

/-- The tree of a chain has its leaves. -/
theorem signedLeaves_tree {chain : Chain} {tree : Tree} (finished : chain.tree? = some tree)
    (odd : Bool) : tree.signedLeaves odd = chain.signedLeaves odd := by
  cases chain with
  | empty => simp [tree?] at finished
  | lone => exact Option.some.inj finished ▸ rfl
  | joined =>
    rw [← Option.some.inj finished]
    exact Tree.signedLeaves_joined _ _ _

/-- A chain without a tree has no leaves. -/
theorem signedLeaves_of_tree_none {chain : Chain} (unfinished : chain.tree? = none) (odd : Bool) :
    chain.signedLeaves odd = [] := by
  cases chain with
  | empty => rfl
  | lone | joined => simp [tree?] at unfinished

end Chain

namespace Phrase

/-- The leaves of a phrase from left to right, under the NOTs around the phrase and those
inside it. -/
def signedLeaves (odd : Bool) : Phrase → List (Bool × Leaf)
  | done => []
  | word _ rest => rest.signedLeaves odd
  | leaf negations content rest => (negatedValue negations odd, content) :: rest.signedLeaves odd
  | scope negations inner rest =>
    inner.signedLeaves (negatedValue negations odd) ++ rest.signedLeaves odd

/-- Building a chain keeps every leaf under as many NOTs. -/
theorem chainFrom_signedLeaves (phrase : Phrase) (chain last : Chain)
    (pending waiting : Option Connective)
    (built : phrase.chainFrom chain pending = some (last, waiting)) (odd : Bool) :
    last.signedLeaves odd = chain.signedLeaves odd ++ phrase.signedLeaves odd := by
  induction phrase generalizing chain last pending waiting odd with
  | done =>
    cases built
    simp [signedLeaves]
  | word connective rest ih =>
    exact ih chain last (some connective) waiting built odd
  | leaf negations content rest ih =>
    have rest := ih _ last none waiting built odd
    simp [rest, Chain.signedLeaves_add, Tree.signedLeaves_negatedTimes, signedLeaves]
  | scope negations inner rest ihInner ihRest =>
    simp only [chainFrom] at built
    split at built
    · contradiction
    · next innerChain innerWaiting innerBuilt =>
      have innerLeaves (odd : Bool) : innerChain.signedLeaves odd = inner.signedLeaves odd :=
        ihInner .empty innerChain none innerWaiting innerBuilt odd
      split at built
      · next operand finished =>
        have rest := ihRest _ last none waiting built odd
        simp [rest, Chain.signedLeaves_add, Tree.signedLeaves_negatedTimes,
          Chain.signedLeaves_tree finished, innerLeaves, signedLeaves]
      · next unfinished =>
        have noLeaves (odd : Bool) : inner.signedLeaves odd = [] :=
          (innerLeaves odd).symm.trans (Chain.signedLeaves_of_tree_none unfinished odd)
        split at built
        · simpa [signedLeaves, noLeaves] using ihRest chain last pending waiting built odd
        · contradiction

end Phrase

namespace Token

/-- The leaves among some tokens, each with whether an odd number of NOTs stands around it. The
tokens begin under an odd number of them if `odd` is set, `negations` more wait for an operand,
and `outer` tells the same of the scopes around. -/
def signedLeaves (odd : Bool) (negations : Nat) (outer : List Bool) :
    List Token → List (Bool × Leaf)
  | [] => []
  | leaf content :: rest => (negatedValue negations odd, content) :: signedLeaves odd 0 outer rest
  | not :: rest => signedLeaves odd (negations + 1) outer rest
  | opening :: rest => signedLeaves (negatedValue negations odd) 0 (odd :: outer) rest
  | closing :: rest => signedLeaves (outer.headD false) 0 outer.tail rest
  | and :: rest | or :: rest | stray :: rest => signedLeaves odd negations outer rest

/-- NOTs in front of some tokens wait together with those that wait already. -/
theorem signedLeaves_replicate (count : Nat) (odd : Bool) (negations : Nat) (outer : List Bool)
    (rest : List Token) :
    signedLeaves odd negations outer (List.replicate count not ++ rest) =
      signedLeaves odd (negations + count) outer rest := by
  induction count generalizing negations with
  | zero => rfl
  | succ count ih =>
    rw [List.replicate_succ, List.cons_append, signedLeaves, ih,
      Nat.add_right_comm, Nat.add_assoc]

/-- The tokens of a phrase have its leaves. -/
theorem signedLeaves_phrase (phrase : Phrase) (odd : Bool) (outer : List Bool)
    (rest : List Token) :
    signedLeaves odd 0 outer (phrase.tokens ++ rest) =
      phrase.signedLeaves odd ++ signedLeaves odd 0 outer rest := by
  induction phrase generalizing odd outer rest with
  | done => rfl
  | word connective behind ih =>
    cases connective <;> exact ih odd outer rest
  | leaf negations content behind ih =>
    rw [Phrase.tokens, List.append_assoc, signedLeaves_replicate, Nat.zero_add, List.cons_append,
      signedLeaves, ih]
    rfl
  | scope negations inner behind ihInner ihBehind =>
    have text : (inner.tokens ++ closing :: behind.tokens) ++ rest =
        inner.tokens ++ closing :: (behind.tokens ++ rest) := by simp
    rw [Phrase.tokens, List.append_assoc, signedLeaves_replicate, Nat.zero_add, List.cons_append,
      signedLeaves, text, ihInner, signedLeaves, List.headD_cons, List.tail_cons,
      ihBehind, Phrase.signedLeaves, List.append_assoc]

/-- Implicit connectives stand around no leaf. -/
theorem signedLeaves_insertImplicitAnds (tokens : List Token) (odd : Bool) (negations : Nat)
    (outer : List Bool) :
    signedLeaves odd negations outer (insertImplicitAnds tokens) =
      signedLeaves odd negations outer tokens := by
  have after (rest : List Token) (previous : Token) (odd : Bool) (negations : Nat)
      (outer : List Bool) : signedLeaves odd negations outer (insertAndsAfter previous rest) =
        signedLeaves odd negations outer rest := by
    induction rest generalizing previous odd negations outer with
    | nil => rfl
    | cons token rest ih =>
      have kept : signedLeaves odd negations outer (token :: insertAndsAfter token rest) =
          signedLeaves odd negations outer (token :: rest) := by
        cases token <;> simp only [signedLeaves, ih]
      rw [insertAndsAfter]
      split
      · exact kept
      · exact kept
  cases tokens with
  | nil => rfl
  | cons token rest => cases token <;> simp only [insertImplicitAnds, signedLeaves, after]

end Token

/-- A compiled tree has the leaves of its tokens, each under an odd number of NOTs or not as
the tokens tell. -/
theorem signedLeaves_of_compile {tokens : List Token} {tree : Tree}
    (compiled : compile tokens = .ok tree) :
    tree.signedLeaves false = Token.signedLeaves false 0 [] tokens := by
  obtain ⟨phrase, rfl⟩ := exists_phrase_of_compile compiled
  obtain ⟨chain, pending, built, rfl⟩ := (compile_phrase phrase tree).mp compiled
  have leaves : chain.signedLeaves false = phrase.signedLeaves false :=
    Phrase.chainFrom_signedLeaves phrase .empty chain none pending built false
  have told := Token.signedLeaves_phrase phrase false [] []
  rw [List.append_nil] at told
  rw [told, ← leaves, Token.signedLeaves, List.append_nil]
  cases finished : chain.tree? with
  | none => exact (Chain.signedLeaves_of_tree_none finished false).symm
  | some operand =>
    rw [← Chain.signedLeaves_tree finished]
    cases operand <;> simp [Tree.ofScope]

end Detection

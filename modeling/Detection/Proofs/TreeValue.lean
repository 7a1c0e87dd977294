import Detection.Tree

/-!
# The truth value of a condition tree

A condition holds of an event or does not, depending on which of its leaves hold.
An assignment says so for every leaf, and the value of a tree follows from it: AND
asks for all members, OR for one of them, and NOT for the opposite.

The compiler builds trees of one shape only. Below the root every AND and every OR
has at least two members and every NOT exactly one, and the group without a
connective does not occur. Functions that walk compiled trees rely on that shape,
so it is a predicate of its own, and inductions over it have three cases.
-/
namespace Detection

def Leaf.value : Leaf → Value
  | comparison _ _ value _ => value
  | keyword _ value _ => value

namespace Connective

/-- The value of two operands that a connective joins. -/
def apply : Connective → Bool → Bool → Bool
  | and => (· && ·)
  | or => (· || ·)

def token : Connective → Token
  | and => .and
  | or => .or

end Connective

namespace Tree

mutual

/-- Whether a tree holds under an assignment. -/
def value (truth : Leaf → Bool) : Tree → Bool
  | leaf content => truth content
  | group .or members => anyValue truth members
  | group .not members => !allValue truth members
  | group _ members => allValue truth members

def allValue (truth : Leaf → Bool) : List Tree → Bool
  | [] => true
  | member :: others => member.value truth && allValue truth others

def anyValue (truth : Leaf → Bool) : List Tree → Bool
  | [] => false
  | member :: others => member.value truth || anyValue truth others

end

/-- The recursion over the members of an AND is the library's test on lists. -/
theorem allValue_eq (truth : Leaf → Bool) (members : List Tree) :
    allValue truth members = members.all (value truth) := by
  induction members with
  | nil => rfl
  | cons member others ih =>
    simp only [allValue, List.all_cons, ih]

/-- The recursion over the members of an OR is the library's test on lists. -/
theorem anyValue_eq (truth : Leaf → Bool) (members : List Tree) :
    anyValue truth members = members.any (value truth) := by
  induction members with
  | nil => rfl
  | cons member others ih =>
    simp only [anyValue, List.any_cons, ih]

theorem leavesAll_eq (members : List Tree) : leavesAll members = members.flatMap leaves := by
  induction members with
  | nil => rfl
  | cons member others ih =>
    simp only [leavesAll, List.flatMap_cons, ih]

@[simp] theorem value_leaf (truth : Leaf → Bool) (content : Leaf) :
    (leaf content).value truth = truth content := rfl

@[simp] theorem value_and (truth : Leaf → Bool) (members : List Tree) :
    (group .and members).value truth = members.all (value truth) := by
  simp only [value, allValue_eq]

@[simp] theorem value_or (truth : Leaf → Bool) (members : List Tree) :
    (group .or members).value truth = members.any (value truth) := by
  simp only [value, anyValue_eq]

@[simp] theorem value_not (truth : Leaf → Bool) (member : Tree) :
    (group .not [member]).value truth = !member.value truth := by
  simp only [value, allValue, Bool.and_true]

@[simp] theorem value_single (truth : Leaf → Bool) (member : Tree) :
    (group .single [member]).value truth = member.value truth := by
  simp only [value, allValue, Bool.and_true]

@[simp] theorem leaves_leaf (content : Leaf) : (leaf content).leaves = [content] := rfl

@[simp] theorem leaves_group (kind : GroupKind) (members : List Tree) :
    (group kind members).leaves = members.flatMap leaves := by
  simp only [leaves, leavesAll_eq]

/-- The shape of what stands below the root of a compiled tree. -/
inductive Inner : Tree → Prop
  | leaf (content : Leaf) : Inner (.leaf content)
  | joined (connective : Connective) (members : List Tree) (several : 2 ≤ members.length)
      (each : ∀ member ∈ members, Inner member) : Inner (.group connective.kind members)
  | negation (member : Tree) (inner : Inner member) : Inner (.group .not [member])

theorem Inner.leaves_ne_nil {tree : Tree} (inner : tree.Inner) : tree.leaves ≠ [] := by
  induction inner with
  | leaf => simp
  | joined connective members several each ih =>
    cases members with
    | nil => simp at several
    | cons first =>
      have some : first.leaves ≠ [] := ih first (by simp)
      simp [some]
  | negation member inner ih => simpa using ih

/-- A tree in which a negation, and a group that joins nothing, is around one tree only. -/
inductive Proper : Tree → Prop
  | leaf (content : Leaf) : Proper (.leaf content)
  | joined (connective : Connective) (members : List Tree)
      (each : ∀ member ∈ members, Proper member) : Proper (.group connective.kind members)
  | negation (member : Tree) (proper : Proper member) : Proper (.group .not [member])
  | single (member : Tree) (proper : Proper member) : Proper (.group .single [member])

theorem Inner.proper {tree : Tree} (inner : tree.Inner) : tree.Proper := by
  induction inner with
  | leaf content => exact .leaf content
  | joined connective members _ _ ih =>
    exact .joined connective members ih
  | negation member _ ih => exact .negation member ih

/-- The tree under a number of negations. -/
def negatedTimes : Nat → Tree → Tree
  | 0, tree => tree
  | count + 1, tree => negatedTimes count (.group .not [tree])

theorem Inner.negatedTimes (count : Nat) {tree : Tree} (inner : tree.Inner) :
    (tree.negatedTimes count).Inner := by
  induction count generalizing tree with
  | zero => exact inner
  | succ count ih => exact ih (.negation tree inner)

theorem leaves_negatedTimes (count : Nat) (tree : Tree) :
    (tree.negatedTimes count).leaves = tree.leaves := by
  induction count generalizing tree with
  | zero => rfl
  | succ count ih => simp [negatedTimes, ih]

end Tree

/-- A truth value under a number of negations. -/
def negatedValue : Nat → Bool → Bool
  | 0, value => value
  | count + 1, value => negatedValue count (!value)

/-- The value of a tree under negations is that of the tree under as many. -/
theorem Tree.value_negatedTimes (truth : Leaf → Bool) (count : Nat) (tree : Tree) :
    (tree.negatedTimes count).value truth = negatedValue count (tree.value truth) := by
  induction count generalizing tree with
  | zero => rfl
  | succ count ih =>
    simp only [negatedTimes, negatedValue, ih, value_not]

end Detection

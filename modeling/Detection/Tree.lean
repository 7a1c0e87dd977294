import Detection.Token

/-!
# Condition trees

A flat query is compiled into a tree of groups. Connectives associate to the
left and have equal strength: a run of one connective is one group, and a change
of connective makes the group so far the first member of a new one. Parentheses
that enclose no leaf vanish. NOT takes the one operand behind it.

The compiler walks the tokens once. It keeps one frame for every parenthesis
that is open, and each frame holds the operands joined so far, the connective
read since the last of them, and the NOTs that still wait for their operand.
-/
namespace Detection

open Text

/-- How the members of a group are joined. A group without a connective stands
only around a single leaf at the root. -/
inductive GroupKind
  | single
  | and
  | or
  | not
  deriving DecidableEq, Repr, Inhabited

/-- The name of a kind of group in diagnostics. -/
def GroupKind.name : GroupKind → String
  | single => "NONE"
  | and => "AND"
  | or => "OR"
  | not => "NOT"

/-- A condition as a tree. -/
inductive Tree
  | leaf (leaf : Leaf)
  | group (kind : GroupKind) (members : List Tree)
  deriving Repr, Inhabited

namespace Tree

mutual

def describe : Tree → String
  | leaf content => content.describe
  | group .single members => join " " (describeAll members)
  | group kind members => kind.name ++ "(" ++ join ", " (describeAll members) ++ ")"

/-- Several trees in diagnostic lines. -/
def describeAll : List Tree → List String
  | [] => []
  | member :: others => member.describe :: describeAll others

end

mutual

/-- The leaves of a tree from left to right. -/
def leaves : Tree → List Leaf
  | leaf content => [content]
  | group _ members => leavesAll members

/-- The leaves of several trees from left to right. -/
def leavesAll : List Tree → List Leaf
  | [] => []
  | member :: others => member.leaves ++ leavesAll others

end

/-- The distinct fields of a tree in the order of their first use. -/
def fieldNames (tree : Tree) : List String :=
  (tree.leaves.filterMap Leaf.fieldName?).eraseDups

end Tree

/-- The connectives that join two operands. -/
inductive Connective
  | and
  | or
  deriving DecidableEq, Repr, Inhabited

/-- The kind of group that a connective makes. -/
def Connective.kind : Connective → GroupKind
  | and => .and
  | or => .or

/-- The operands of a scope, joined from left to right. A single operand has no
connective yet. -/
inductive Chain
  | empty
  | lone (operand : Tree)
  | joined (connective : Connective) (operands : List Tree)
  deriving Repr, Inhabited

namespace Chain

/-- Join one more operand. The connective in front of the first operand has
nothing to join and is dropped. -/
def add (connective : Connective) (operand : Tree) : Chain → Chain
  | empty => lone operand
  | lone first => joined connective [first, operand]
  | joined previous operands =>
    if previous = connective then joined connective (operands ++ [operand])
    else joined connective [.group previous.kind operands, operand]

/-- The tree of a finished scope, if it has an operand. -/
def tree? : Chain → Option Tree
  | empty => none
  | lone operand => some operand
  | joined connective operands => some (.group connective.kind operands)

end Chain

/-- An open scope. -/
structure Frame where
  chain : Chain := .empty
  /-- The last connective since the previous operand. -/
  pending : Option Connective := none
  /-- Positions of the NOTs that wait for an operand, the last one first. -/
  negations : List Nat := []
  deriving Repr, Inhabited

/-- Why a group cannot be compiled. -/
inductive GroupFault
  | unmatchedClosing
  | unmatchedOpening
  | negatedNothing
  deriving DecidableEq, Repr

/-- The reason that a message gives for a fault. -/
def GroupFault.reason : GroupFault → String
  | unmatchedClosing => "unmatched ')'"
  | unmatchedOpening => "unmatched '('"
  | negatedNothing => "NOT without operand"

/-- Why a list of tokens has no tree, with the position of the token at fault. -/
inductive CompileError
  | unbalanced (position : Nat) (fault : GroupFault)
  | unexpected (token : Token) (position : Nat)
  deriving Repr

def CompileError.message : CompileError → String
  | unbalanced position fault => s!"unbalanced group at token {position}: " ++ fault.reason
  | unexpected token position =>
    "compile: unexpected " ++ token.describe ++ s!" token at {position}"

namespace Frame

/-- Put an operand under the NOTs that wait for it and join it to the scope. -/
def add (frame : Frame) (operand : Tree) : Frame :=
  let negated := frame.negations.foldl (fun tree _ => Tree.group .not [tree]) operand
  { chain := frame.chain.add (frame.pending.getD .and) negated }

/-- Join the outcome of a parenthesised scope. One without operands leaves the
frame alone, unless a NOT waits for it. -/
def addScope (frame : Frame) : Option Tree → Except CompileError Frame
  | some operand => .ok (frame.add operand)
  | none =>
    match frame.negations with
    | [] => .ok frame
    | position :: _ => .error (.unbalanced position .negatedNothing)

/-- No NOT may wait for an operand where something else stands. -/
def expectOperands (frame : Frame) : Except CompileError Unit :=
  match frame.negations with
  | [] => .ok ()
  | position :: _ => .error (.unbalanced position .negatedNothing)

end Frame

/-- Read the tokens from a position on. The innermost open scope is `frame`, and
`outer` holds the scopes around it. -/
def compileFrom (position : Nat) (frame : Frame) (outer : List Frame) :
    List Token → Except CompileError (Option Tree)
  | [] => do
    frame.expectOperands
    if outer.isEmpty then return frame.chain.tree?
    else throw (.unbalanced position .unmatchedOpening)
  | .leaf content :: rest =>
    compileFrom (position + 1) (frame.add (.leaf content)) outer rest
  | .and :: rest => do
    frame.expectOperands
    compileFrom (position + 1) { frame with pending := some .and } outer rest
  | .or :: rest => do
    frame.expectOperands
    compileFrom (position + 1) { frame with pending := some .or } outer rest
  | .not :: rest =>
    compileFrom (position + 1)
      { frame with negations := position :: frame.negations } outer rest
  | .opening :: rest => compileFrom (position + 1) {} (frame :: outer) rest
  | .closing :: rest => do
    frame.expectOperands
    match outer with
    | [] => throw (.unbalanced position .unmatchedClosing)
    | enclosing :: others =>
      let joined ← enclosing.addScope frame.chain.tree?
      compileFrom (position + 1) joined others rest
  | .stray :: _ => throw (.unexpected .stray position)

/-- The root of a query: the empty query is an AND of nothing, and a single leaf
stands in a group of its own. -/
def Tree.ofScope : Option Tree → Tree
  | none => .group .and []
  | some (.leaf content) => .group .single [.leaf content]
  | some tree => tree

def compile (tokens : List Token) : Except CompileError Tree := do
  let scope ← compileFrom 0 {} [] (Token.delimitNegations tokens)
  return Tree.ofScope scope

end Detection

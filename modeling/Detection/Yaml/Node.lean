/-!
# YAML nodes

The tree that a YAML document stands for, before anybody asks what its scalars
mean. A node keeps the line on which it starts and the style in which it was
written, because both can be seen later: the line in messages, the style when
the node is printed again.
-/
namespace Detection.Yaml

/-- How a scalar is written. -/
inductive Style
  | plain
  | singleQuoted
  | doubleQuoted
  | literal
  | folded
  deriving DecidableEq, Repr, Inhabited

/-- A text with the tag that says what kind of value it is. -/
structure Scalar where
  text : String
  tag : String := "!!str"
  style : Style := .plain
  /-- Whether the tag was written out. -/
  tagged : Bool := false
  line : Nat := 0
  deriving Repr, Inhabited

/-- A node of a document. A reference carries the node it stands for, unless
that node is one that contains the reference. -/
inductive Node
  | scalar (scalar : Scalar)
  | sequence (flow : Bool) (line : Nat) (items : List Node)
  | mapping (flow : Bool) (line : Nat) (entries : List (Node × Node))
  | reference (name : String) (line : Nat) (target? : Option Node)
  deriving Repr, Inhabited

namespace Node

/-- The line on which a node starts, counted from one. -/
def line : Node → Nat
  | scalar content => content.line
  | sequence _ line _ => line
  | mapping _ line _ => line
  | reference _ line _ => line

def ofText (text : String) : Node :=
  scalar { text }

def ofItems (items : List Node) : Node :=
  sequence false 0 items

def ofEntries (entries : List (Node × Node)) : Node :=
  mapping false 0 entries

end Node

end Detection.Yaml

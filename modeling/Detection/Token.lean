import Detection.Operator
import Detection.Value

/-!
# Tokens

A query in the common model is a flat list of tokens: comparisons of a field
with a value, keywords that are searched in the whole event, the connectives and
the parentheses. Comparisons and keywords are the leaves of the query.
-/
namespace Detection

open Text

/-- Which ends of a value carried a wildcard that has been taken off. -/
structure Wildcards where
  leading : Bool := false
  trailing : Bool := false
  deriving DecidableEq, Repr, Inhabited

/-- A field as the query names it, with the generic names that mappings give it.
A later entry for a mapping stands in front of an earlier one. -/
structure Field where
  name : String
  generic : List (String × String) := []
  deriving Repr, Inhabited, BEq

/-- The generic name under a mapping, empty if there is none. -/
def Field.genericName (field : Field) (mapping : String) : String :=
  (field.generic.lookup mapping).getD ""

/-- The field with its generic name under a mapping. -/
def Field.withGenericName (field : Field) (mapping generic : String) : Field :=
  { field with generic := (mapping, generic) :: field.generic }

/-- A condition on an event. -/
inductive Leaf
  | comparison (field : Field) (operator : Operator) (value : Value) (wildcards : Wildcards)
  | keyword (operator : Operator) (value : Value) (wildcards : Wildcards)
  deriving Repr, Inhabited

def Leaf.describe : Leaf → String
  | comparison field operator value _ =>
    field.name ++ " " ++ operator.name ++ " " ++ value.describe
  | keyword operator value _ => operator.name ++ " " ++ value.describe

def Leaf.fieldName? : Leaf → Option String
  | comparison field _ _ _ => some field.name
  | keyword .. => none

/-- An element of a flat query. The stray operator is the only token that no
query may contain. -/
inductive Token
  | leaf (leaf : Leaf)
  | and
  | or
  | not
  | opening
  | closing
  | stray
  deriving Repr, Inhabited

namespace Token

def describe : Token → String
  | leaf content => content.describe
  | and => "AND"
  | or => "OR"
  | not => "NOT"
  | opening => "("
  | closing => ")"
  | stray => "operator"

def leaf? : Token → Option Leaf
  | leaf content => some content
  | _ => none

/-- Whether an operand ends with this token. -/
def endsOperand : Token → Bool
  | leaf _ | closing => true
  | _ => false

/-- Whether an operand starts with this token. -/
def startsOperand : Token → Bool
  | leaf _ | opening | not => true
  | _ => false

/-- Several tokens in a diagnostic line. -/
def describeAll (tokens : List Token) : String :=
  join " " (tokens.map describe)

/-- The distinct fields of a query in the order of their first use. -/
def fieldNames (tokens : List Token) : List String :=
  ((tokens.filterMap leaf?).filterMap Leaf.fieldName?).eraseDups

/-- Put AND between a token and the rest when one operand ends and another
starts there. -/
def insertAndsAfter (previous : Token) : List Token → List Token
  | [] => []
  | token :: rest =>
    if previous.endsOperand && token.startsOperand then
      and :: token :: insertAndsAfter token rest
    else token :: insertAndsAfter token rest

/-- Put AND between any two operands that stand side by side. -/
def insertImplicitAnds : List Token → List Token
  | [] => []
  | token :: rest => token :: insertAndsAfter token rest

/-- Put parentheses around every leaf that follows NOT, so that NOT always
applies to a delimited group. -/
def delimitNegations : List Token → List Token
  | not :: leaf content :: rest =>
    not :: opening :: leaf content :: closing :: delimitNegations rest
  | token :: rest => token :: delimitNegations rest
  | [] => []

end Token

end Detection

/-!
# Comparison operators

The operators of the common query model. A code outside the known ones can
reach the renderers, which refuse it by its number.
-/
namespace Detection

/-- The relation between a field, or the whole event, and a value. -/
inductive Operator
  | eq
  | neq
  | lt
  | lte
  | gt
  | gte
  | contains
  | notContains
  | startsWith
  | endsWith
  | regex
  | notRegex
  /-- The field is absent. -/
  | isNone
  /-- The field is present. -/
  | isNotNone
  /-- A search without a field. -/
  | keyword
  | other (code : Int)
  deriving DecidableEq, Repr, Inhabited

namespace Operator

/-- The known operators in the order of their codes. -/
def known : List Operator :=
  [.eq, .neq, .lt, .lte, .gt, .gte, .contains, .notContains, .startsWith, .endsWith,
    .regex, .notRegex, .isNone, .isNotNone, .keyword]

def ofCode (code : Int) : Operator :=
  if code < 0 then .other code
  else (known[code.toNat]?).getD (.other code)

/-- The name of an operator in diagnostics. -/
def name : Operator → String
  | eq => "eq"
  | neq => "neq"
  | lt => "lt"
  | lte => "lte"
  | gt => "gt"
  | gte => "gte"
  | contains => "contains"
  | notContains => "not_contains"
  | startsWith => "startswith"
  | endsWith => "endswith"
  | regex => "re"
  | notRegex => "not_re"
  | isNone => "is_none"
  | isNotNone => "is_not_none"
  | keyword => "keywords"
  | other code => s!"OperatorType({code})"

/-- Whether an operator excludes what it names. Several values of a negated
operator are joined by AND, of any other by OR. -/
def negated : Operator → Bool
  | neq | notContains | notRegex => true
  | _ => false

end Operator

end Detection

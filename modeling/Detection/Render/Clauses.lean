import Detection.Operator
import Detection.Render.Error
import Detection.Value

/-!
# Clauses

How a platform writes the comparison of a field with a value. A comparison with
several values is written with the platform's own form for lists, if it has one
and it applies, and else as a chain of comparisons with the single values.
-/
namespace Detection

open Text

/-- How a platform writes comparisons. A comparison without a field, which has an
empty name, searches the whole event. -/
structure Clauses where
  /-- The comparison with a single value. -/
  scalar : String → Operator → Value → Except RenderError String
  /-- The form for a field that has one of several values. -/
  oneOf? : Option (String → List Value → Except RenderError String) := none

/-- The words that join comparisons. -/
structure Words where
  or : String
  and : String

/-- The value without the lists that hold nothing but it. -/
def Value.unwrapped : Value → Value
  | .list [item] => item.unwrapped
  | value => value

/-- Write a comparison. A chain of negated comparisons is joined by AND, since the
field must have none of the values. -/
def Clauses.comparison (clauses : Clauses) (words : Words) (field : String) (operator : Operator)
    (value : Value) : Except RenderError String :=
  let chain (items : List Value) : Except RenderError String := do
    let parts ← items.mapM (clauses.scalar field operator)
    let word := if operator.negated then words.and else words.or
    return "(" ++ join (" " ++ word ++ " ") parts ++ ")"
  match value.unwrapped with
  | .list items =>
    match clauses.oneOf? with
    | some oneOf =>
      if operator = .eq && field != "" && !items.isEmpty then oneOf field items else chain items
    | none => chain items
  | single => clauses.scalar field operator single

end Detection

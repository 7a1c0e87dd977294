import Detection.Token

/-!
# Wildcards at the ends of a value

A dialect writes "contains", "starts with" and "ends with" as an equality with a
value that has the wildcard at its ends. Reading such a value takes the wildcard
off and changes the operator. A wildcard inside the value stays there as a star,
and the value becomes a pattern.
-/
namespace Detection

open Text

/-- An equality after the wildcards at the ends of its value have been taken off.
When `negate` is set, the comparison stands for its complement. -/
structure Promotion where
  operator : Operator
  value : Value
  wildcards : Wildcards := {}
  negate : Bool := false

/-- A value whose inner wildcards are written as stars. -/
def patternValue (wildcard text : List Char) : Value :=
  if wildcard.isEmpty || !occurs wildcard text then .text (String.ofList text)
  else .pattern (String.ofList (replaceChars wildcard ['*'] text)) true

def dropLeadingWildcard (wildcard text : List Char) : Bool × List Char :=
  match wildcard.isPrefixOf? text with
  | some rest => (true, rest)
  | none => (false, text)

/-- Take a trailing wildcard off, unless a backslash stands in front of it. -/
def dropTrailingWildcard (wildcard text : List Char) : Bool × List Char :=
  if endsWith wildcard text && !endsWith ('\\' :: wildcard) text then
    (true, text.take (text.length - wildcard.length))
  else (false, text)

/-- Read an equality whose value may have wildcards at its ends. Any other
operator, and any dialect without a wildcard, keeps the operator. -/
def promoteWildcards (operator : Operator) (text wildcard : List Char) : Promotion :=
  if wildcard.isEmpty || (operator != .eq && operator != .neq) then
    { operator, value := patternValue wildcard text }
  else if text == wildcard then
    { operator := if operator == .eq then .isNotNone else .isNone
      value := .text ""
      wildcards := ⟨true, true⟩ }
  else
    let (leading, text) := dropLeadingWildcard wildcard text
    let (trailing, text) := dropTrailingWildcard wildcard text
    let value := patternValue wildcard text
    let negative := operator == .neq
    match leading, trailing with
    | true, true =>
      { operator := if negative then .notContains else .contains
        value
        wildcards := ⟨true, true⟩ }
    | true, false =>
      { operator := .endsWith, value, wildcards := ⟨true, false⟩, negate := negative }
    | false, true =>
      { operator := .startsWith, value, wildcards := ⟨false, true⟩, negate := negative }
    | false, false => { operator, value }

end Detection

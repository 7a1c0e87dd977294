import Detection.Render.Query

/-!
# Cortex queries

A query names a preset or a data set and filters it. Values with wildcards are
compared by regular expressions.
-/
namespace Detection.Xql

open Text

def platform : String := "cortex_xql"

/-- Stars, quotes and backslashes are escaped in texts, and all marks in regular
expressions. -/
def escaping : Escaping := ⟨fun
  | .value => [Escaping.backslash "*\"\\"]
  | .regex => [Escaping.backslash "_!@#$%^&*=+()[]\x7b\x7d|;:'\",.<>?/`~-\\"]
  | _ => []⟩

def literal (value : Value) : Except RenderError String :=
  Except.orDefect (value.literal escaping .value "\"")

/-- The body of a regular expression for a value. -/
def body (value : Value) : Except RenderError String := do
  let text ← Except.orDefect value.content
  if value.isSpecial then return globToRegex escaping text
  else return escaping.escape .regex text

/-- A comparison with a regular expression around the body for a value. -/
def matching (field symbol lead : String) (value : Value) (trail : String) :
    Except RenderError String := do
  return field ++ " " ++ symbol ++ " \"" ++ lead ++ (← body value) ++ trail ++ "\""

def compared (field symbol : String) (value : Value) : Except RenderError String := do
  return field ++ " " ++ symbol ++ " " ++ (← literal value)

/-- A comparison with a regular expression. -/
def regex (field symbol : String) (value : Value) : Except RenderError String := do
  let text ← Except.orDefect value.content
  return field ++ " " ++ symbol ++ " \"" ++ replace text "\"" "\\\"" ++ "\""

/-- Search for a text. One with wildcards, or with a backslash at its end, needs a
regular expression. -/
def containing (field word symbol : String) (value : Value) : Except RenderError String := do
  if value.isSpecial then matching field symbol ".*" value ".*"
  else
    let text ← Except.orDefect value.content
    if text.toList.getLast? == some '\\' then matching field symbol ".*" value ".*"
    else compared field word value

def fieldScalar (field : String) (operator : Operator) (value : Value) :
    Except RenderError String :=
  match operator with
  | .eq => if value.isSpecial then matching field "~=" "^" value "$" else compared field "=" value
  | .neq =>
    if value.isSpecial then matching field "!~=" "^" value "$" else compared field "!=" value
  | .lt => compared field "<" value
  | .lte => compared field "<=" value
  | .gt => compared field ">" value
  | .gte => compared field ">=" value
  | .contains => containing field "contains" "~=" value
  | .notContains => containing field "not contains" "!~=" value
  | .startsWith => matching field "~=" "" value ".*"
  | .endsWith => matching field "~=" ".*" value ""
  | .regex => regex field "~=" value
  | .notRegex => regex field "!~=" value
  | .isNone => .ok (field ++ " = null")
  | .isNotNone => .ok (field ++ " != null")
  | _ => .error (.construct platform operator.name .hard)

def rawField : String := "_raw_log"

/-- A comparison. A search in the whole event is one in the raw log. -/
def scalar (field : String) (operator : Operator) (value : Value) : Except RenderError String :=
  if field == "" then
    fieldScalar rawField
      (if operator = .keyword || operator = .eq then .contains else operator) value
  else fieldScalar field operator value

/-- A comparison with a list. One that holds wildcards becomes a chain. -/
def oneOf (field : String) (values : List Value) : Except RenderError String := do
  let parts ← values.mapM literal
  if values.any Value.isSpecial then
    return "(" ++ join " or " (← values.mapM (scalar field .eq)) ++ ")"
  else return field ++ " in (" ++ join ", " parts ++ ")"

def clauses : Clauses :=
  ⟨scalar, some oneOf⟩

/-- How the signatures of mappings are made. -/
def signature : SignatureForm :=
  ⟨.set, .pairs " = " " " false ["preset", "dataset"]⟩

def form (repository : Repository) (strict : Bool) : QueryForm where
  platform := platform
  repository
  clauses := clauses
  words := ⟨"or", "and"⟩
  notWord := "not"
  layout := "\x7bprefix\x7d | filter \x7bquery\x7d \x7bfunctions\x7d"
  strict
  commentOpening := "//"

end Detection.Xql

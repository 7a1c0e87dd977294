import Detection.Render.Alternation
import Detection.Render.Query

/-!
# LogRhythm Axon searches

Every field has to be mapped; a value of a field that is not is searched in the
raw message. A search for a text takes no regular expression, but one that uses
only bars and stars can be searched for in parts.
-/
namespace Detection.Axon

open Text

def platform : String := "logrhythm_axon"

def rawField : String := "general_information.raw_message"

/-- Backslashes and quotes are escaped in texts, and the marks of regular
expressions in these. -/
def escaping : Escaping := ⟨fun
  | .value => [Escaping.backslash "\\\""]
  | .regex => [Escaping.backslash "\\.^$|?*+()[]\x7b\x7d"]
  | _ => []⟩

def quoted (text : String) : String :=
  "\"" ++ escaping.escape .value text ++ "\""

/-- A regular expression between double quotes. -/
def regex (body : String) : String :=
  "\"" ++ replace body "\"" "\\\"" ++ "\""

/-- Search for a text. A value with wildcards or bars is searched for in parts, if
it has no other mark of regular expressions. -/
def containing (field : String) (value : Value) : Except RenderError String := do
  let text ← Except.orDefect value.content
  if !value.isSpecial && !contains text "|" then return field ++ " CONTAINS " ++ quoted text
  else if isComplexRegex text then throw (.regex platform field text false)
  else return alternationContains text "OR" "AND" fun part => field ++ " CONTAINS " ++ quoted part

/-- A comparison with a value that has wildcards, or whose operator has to be
written as a regular expression. -/
def matching (field body : String) : String :=
  field ++ " matches " ++ regex body

/-- An order comparison; a number has no quotes. -/
def ordered (field symbol : String) (value : Value) : Except RenderError String := do
  let text ← Except.orDefect value.content
  return field ++ " " ++ symbol ++ " " ++ (if value.isNumber then text else quoted text)

def fieldScalar (field : String) (operator : Operator) (value : Value) :
    Except RenderError String :=
  match operator with
  | .eq => do
    let text ← Except.orDefect value.content
    if value.isSpecial then
      return matching field ("^" ++ globToRegex escaping text ++ "$")
    else return field ++ " = " ++ quoted text
  | .neq => do
    let text ← Except.orDefect value.content
    if value.isSpecial then
      return "NOT " ++ matching field ("^" ++ globToRegex escaping text ++ "$")
    else ordered field "!=" value
  | .lt => ordered field "<" value
  | .lte => ordered field "<=" value
  | .gt => ordered field ">" value
  | .gte => ordered field ">=" value
  | .contains => containing field value
  | .notContains => do return "NOT " ++ (← containing field value)
  | .startsWith => do
    let text ← Except.orDefect value.content
    return matching field ("^" ++ escaping.escape .regex text ++ ".*")
  | .endsWith => do
    let text ← Except.orDefect value.content
    return matching field (".*" ++ escaping.escape .regex text ++ "$")
  | .regex => do return matching field (← Except.orDefect value.content)
  | .notRegex => do return "NOT " ++ matching field (← Except.orDefect value.content)
  | _ => .error (.construct platform (operator.name ++ " on field " ++ field) .hard)

/-- A comparison. A search in the whole event is one in the raw message. -/
def scalar (field : String) (operator : Operator) (value : Value) : Except RenderError String :=
  if field == "" then
    fieldScalar rawField
      (if operator = .keyword || operator = .eq then .contains else operator) value
  else fieldScalar field operator value

/-- A comparison with a list, which may not hold wildcards. -/
def strictOneOf (field : String) (values : List Value) : Except RenderError String := do
  let parts ← values.mapM fun value => do
    if value.isSpecial then throw (.construct platform "wildcard in list" .soft)
    return quoted (← Except.orDefect value.content)
  return field ++ " IN [" ++ join ", " parts ++ "]"

/-- The comparisons with a list form that takes no wildcards. -/
def strictClauses : Clauses :=
  ⟨scalar, some strictOneOf⟩

/-- A comparison with a list. One that holds wildcards becomes a chain. -/
def oneOf (field : String) (values : List Value) : Except RenderError String :=
  match strictOneOf field values with
  | .ok text => .ok text
  | .error (.defect cause) => .error (.defect cause)
  | .error _ => do
    let parts ← values.mapM (scalar field .eq)
    return "(" ++ join " OR " parts ++ ")"

def clauses : Clauses :=
  ⟨scalar, some oneOf⟩

/-- How the signatures of mappings are made. -/
def signature : SignatureForm :=
  ⟨.set, .valueOf "field"⟩

/-- The condition on the type of log source, narrowed by the product if it is known. -/
def lead (mapping : SourceMapping) (info : Meta) : String :=
  let product := ((info.logSources.lookup "product").bind List.head?).getD "anything"
  mapping.display ++ " CONTAINS " ++ product

def form (repository : Repository) : QueryForm where
  platform := platform
  repository
  clauses := clauses
  layout := "\x7bprefix\x7d AND \x7bquery\x7d \x7bfunctions\x7d"
  strict := true
  rawField := rawField
  commentOpening := "//"
  lead := lead

end Detection.Axon

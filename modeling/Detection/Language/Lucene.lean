import Detection.Json
import Detection.Render.Query

/-!
# OpenSearch queries and monitors

Queries are written in the query string language of Lucene. A monitor is a JSON
document around a query that raises an alarm on any hit.
-/
namespace Detection.Lucene

open Text

/-- The name of the platform in errors. -/
def platform : String := "opensearch"

/-- Outside of quotes all reserved characters are escaped, inside quotes the quote
and the backslash, and between slashes the slash. -/
def escaping : Escaping := ⟨fun
  | .unquoted => [Escaping.backslash "\\+-=&|><!()\x7b\x7d[]^\"~*?:/ "]
  | .doubleQuoted => [Escaping.backslash "\\\""]
  | .regex => [Escaping.backslash "/"]
  | _ => []⟩

/-- A value between double quotes; a number has none. -/
def quoted : Value → Except RenderError String
  | .number lexeme => .ok lexeme
  | value => do
    let text ← Except.orDefect value.content
    return "\"" ++ escaping.escape .doubleQuoted text ++ "\""

/-- A value without quotes, in which the stars of one with wildcards stay. -/
def bare (value : Value) : Except RenderError String := do
  let text ← Except.orDefect value.content
  if value.isSpecial then return escaping.overStars .unquoted "*" text
  else return escaping.escape .unquoted text

def plain (value : Value) : Except RenderError String :=
  if value.isSpecial then bare value else quoted value

/-- A regular expression between slashes. -/
def regex (value : Value) : Except RenderError String := do
  let text ← Except.orDefect value.content
  return "/" ++ escaping.escape .regex text ++ "/"

/-- A comparison. One without a field searches all of them. -/
def scalar (field : String) (operator : Operator) (value : Value) : Except RenderError String :=
  let lead := if field == "" then "" else field ++ ":"
  let unsupported : Except RenderError String := .error (.construct platform operator.name .hard)
  match operator with
  | .eq | .keyword => do return lead ++ (← plain value)
  | .neq => do return "NOT " ++ lead ++ (← plain value)
  | .lt => do return lead ++ "<" ++ (← quoted value)
  | .lte => do return lead ++ "<=" ++ (← quoted value)
  | .gt => do return lead ++ ">" ++ (← quoted value)
  | .gte => do return lead ++ ">=" ++ (← quoted value)
  | .contains => do return lead ++ "*" ++ (← bare value) ++ "*"
  | .notContains => do return "NOT " ++ lead ++ "*" ++ (← bare value) ++ "*"
  | .startsWith => do return lead ++ (← bare value) ++ "*"
  | .endsWith => do return lead ++ "*" ++ (← bare value)
  | .regex => do return lead ++ (← regex value)
  | .notRegex => do return "NOT " ++ lead ++ (← regex value)
  | .isNotNone => if field == "" then unsupported else .ok ("_exists_:" ++ field)
  | .isNone => if field == "" then unsupported else .ok ("NOT _exists_:" ++ field)
  | .other _ => unsupported

def oneOf (field : String) (values : List Value) : Except RenderError String := do
  let parts ← values.mapM plain
  return field ++ ":(" ++ join " OR " parts ++ ")"

def clauses : Clauses :=
  ⟨scalar, some oneOf⟩

/-- How the signatures of mappings are made. -/
def signature : SignatureForm :=
  ⟨.set, .valueOf "index"⟩

/-- How queries are rendered. The index is no part of the query. -/
def form (repository : Repository) (strict : Bool) : QueryForm where
  platform := platform
  repository
  clauses := clauses
  layout := "\x7bquery\x7d \x7bfunctions\x7d"
  strict
  commentOpening := "//"
  lead := fun _ _ => ""

def severities : SeverityScale := ⟨"5", "4", "3", "2"⟩

def monitorSearch (query index : String) : Json :=
  .object [("search", .object [
    ("indices", .array [.string (if index == "" then "*" else index)]),
    ("query", .object [
      ("size", .number "0"),
      ("query", .object [("bool", .object [("must", .array [
        .object [("query_string", .object [
          ("query", .string query),
          ("analyze_wildcard", .bool true)])]])])])])])]

def monitorTrigger (info : Meta) : Json :=
  .object [
    ("name", .string info.title),
    ("severity", .string (severities.level info.severity)),
    ("condition", .object [("script", .object [
      ("source", .string "ctx.results[0].hits.total.value > 0"),
      ("lang", .string "painless")])]),
    ("actions", .array [])]

def monitor (query index : String) (info : Meta) : Json :=
  .object [
    ("type", .string "monitor"),
    ("monitor_type", .string "query_level_monitor"),
    ("name", .string info.title),
    ("enabled", .bool true),
    ("schedule", .object [("period", .object [
      ("interval", .number "5"),
      ("unit", .string "MINUTES")])]),
    ("inputs", .array [monitorSearch query index]),
    ("triggers", .array [monitorTrigger info])]

def monitorForm (repository : Repository) (strict : Bool) : QueryForm :=
  { form repository strict with
    platform := "opensearch_rule"
    envelope := fun query mapping info =>
      Json.print ⟨4, false⟩ (monitor query mapping.display info) }

end Detection.Lucene

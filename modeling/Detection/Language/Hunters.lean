import Detection.Render.Query
import Detection.Text.Pattern

/-!
# Hunters queries

Queries are written in SQL. A value with wildcards is compared by LIKE, in which
a percent sign stands for any run of characters.
-/
namespace Detection.Hunters

open Text

def platform : String := "hunters"

/-- A quote is written twice, and the marks of LIKE are escaped in its patterns. -/
def escaping : Escaping := ⟨fun
  | .value | .regex => [.doubled '\'' false]
  | .contains => [Escaping.backslash "\\%_", .doubled '\'' false]
  | _ => []⟩

def literal (value : Value) : Except RenderError String :=
  Except.orDefect (value.literal escaping .value "'")

def likePattern (lead : String) (value : Value) (trail : String) : Except RenderError String := do
  let text ← Except.orDefect value.content
  let body :=
    if value.isSpecial then escaping.overStars .contains "%" text
    else escaping.escape .contains text
  return "'" ++ lead ++ body ++ trail ++ "'"

def like (field word lead : String) (value : Value) (trail : String) :
    Except RenderError String := do
  return field ++ " " ++ word ++ " " ++ (← likePattern lead value trail)

def compared (field symbol : String) (value : Value) : Except RenderError String := do
  return field ++ " " ++ symbol ++ " " ++ (← literal value)

/-- A comparison with a regular expression. -/
def regex (field word : String) (value : Value) : Except RenderError String := do
  let text ← Except.orDefect value.content
  return field ++ " " ++ word ++ " '" ++ escaping.escape .regex text ++ "'"

/-- A comparison. There is no search in the whole event. -/
def scalar (field : String) (operator : Operator) (value : Value) : Except RenderError String :=
  if field == "" then .error (.construct platform "keyword search" .hard)
  else match operator with
    | .eq => if value.isSpecial then like field "ILIKE" "" value "" else compared field "=" value
    | .neq =>
      if value.isSpecial then like field "NOT ILIKE" "" value "" else compared field "!=" value
    | .lt => compared field "<" value
    | .lte => compared field "<=" value
    | .gt => compared field ">" value
    | .gte => compared field ">=" value
    | .contains => like field "ILIKE" "%" value "%"
    | .notContains => like field "NOT ILIKE" "%" value "%"
    | .startsWith => like field "ILIKE" "" value "%"
    | .endsWith => like field "ILIKE" "%" value ""
    | .regex => regex field "RLIKE" value
    | .notRegex => regex field "NOT RLIKE" value
    | .isNone => .ok (field ++ " IS NULL")
    | .isNotNone => .ok (field ++ " IS NOT NULL")
    | _ => .error (.construct platform operator.name .hard)

/-- The literals of a list up to the first value with wildcards; nothing if there
is one. -/
def literals : List Value → Except RenderError (Option (List String))
  | [] => .ok (some [])
  | value :: others => do
    if value.isSpecial then return none
    let first ← literal value
    return (← literals others).map (first :: ·)

/-- A comparison with a list. One that holds wildcards becomes a chain. -/
def oneOf (field : String) (values : List Value) : Except RenderError String := do
  match ← literals values with
  | some parts => return field ++ " IN (" ++ join ", " parts ++ ")"
  | none => return "(" ++ join " OR " (← values.mapM (scalar field .eq)) ++ ")"

def clauses : Clauses :=
  ⟨scalar, some oneOf⟩

/-- How the signatures of mappings are made. -/
def signature : SignatureForm :=
  ⟨.set, .valueOf "table"⟩

/-- The selection from the table of a mapping. A name that is not plain is quoted. -/
def lead (mapping : SourceMapping) (_ : Meta) : String :=
  let table := mapping.display
  let isPlain := !table.isEmpty && table.toList.all fun c => isWord c || c == '.'
  "SELECT * FROM " ++ (if isPlain then table else "\"" ++ replace table "\"" "\"\"" ++ "\"")

def form (repository : Repository) (strict : Bool) : QueryForm where
  platform := platform
  repository
  clauses := clauses
  layout := "\x7bprefix\x7d WHERE \x7bquery\x7d \x7bfunctions\x7d"
  strict
  commentOpening := "--"
  lead := lead

end Detection.Hunters

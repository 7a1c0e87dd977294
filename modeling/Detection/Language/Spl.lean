import Detection.Source

/-!
# Splunk searches

A search is a filter and a pipeline of functions. The filter may say in which
index and source to look. CrowdStrike searches are written in the same language
for other data.
-/
namespace Detection.Spl

open Text Lexer

/-- Backslashes and the quotes around a literal are escaped in it. -/
def escaping : Escaping := ⟨fun
  | .value | .doubleQuoted | .regex => [Escaping.backslash "\\\""]
  | .singleQuoted => [Escaping.backslash "\\'"]
  | _ => []⟩

/-- The characters of a value without quotes. -/
def isBare (c : Char) : Bool :=
  !(isSpace c || ['"', '\'', '(', ')', ',', '=', '<', '>', '!', '|'].contains c)

/-- The language of filters. The connectives are written in capital letters. -/
def dialect : Dialect where
  field := name? Dialect.isNameStart fun c =>
    Dialect.isNameStart c || c.isDigit || c == '.' || c == '-'
  operators := ⟨"in", .eq, true, none⟩ :: Dialect.commonComparisons
  foldOperators := true
  wildcard := "*"
  bare? := some isBare
  doubleQuotes := true
  singleQuotes? := some .escaped
  connectives := [("OR", .or), ("NOT", .not), ("AND", .and)]
  foldConnectives := false
  keywords := true
  implicitAnd := true
  escaping := escaping

/-- The parts of a filter that say where to look. -/
def selectors : List Selector :=
  ["index", "sourcetype", "source"].map fun key =>
    Selector.equality key (.anyCase key) Selector.wordValue

/-- How the signatures of Splunk mappings are made. -/
def signature : SignatureForm :=
  ⟨.set, .pairs "=" " " true ["index", "source", "sourcetype"]⟩

def read (repository : Repository) (text : String) (info : Option Meta) :
    Except ReadError Query := do
  let (filter, stages) := Pipeline.split text
  let (hints, filter) := Selector.extract selectors filter
  let pipeline ← (Pipeline.ofStages stages).mapError fun cause => ⟨.defect cause, none⟩
  let tokens ← dialect.read filter
  Query.ofTokens repository tokens hints (Meta.initial.merge? info) pipeline

/-- A value between double quotes, with wildcards at its ends. A number without
wildcards has no quotes. -/
def quoted (lead : String) (value : Value) (trail : String) : Except RenderError String :=
  match value with
  | .number lexeme =>
    if lead == "" && trail == "" then .ok lexeme
    else .ok ("\"" ++ lead ++ escaping.escape .doubleQuoted lexeme ++ trail ++ "\"")
  | other => do
    let content ← Except.orDefect other.content
    return "\"" ++ lead ++ escaping.escape .doubleQuoted content ++ trail ++ "\""

def keyword (platform : String) (operator : Operator) (value : Value) :
    Except RenderError String :=
  match operator with
  | .keyword | .eq | .contains => quoted "" value ""
  | .startsWith => quoted "" value "*"
  | .endsWith => quoted "*" value ""
  | _ => .error (.construct platform ("keyword " ++ operator.name) .hard)

/-- A comparison. Regular expressions belong to the pipeline and cannot stand in a
filter. -/
def scalar (platform field : String) (operator : Operator) (value : Value) :
    Except RenderError String :=
  let after (symbol lead trail : String) : Except RenderError String := do
    return field ++ symbol ++ (← quoted lead value trail)
  if field == "" then keyword platform operator value
  else match operator with
    | .eq => after "=" "" ""
    | .neq => after "!=" "" ""
    | .lt => after "<" "" ""
    | .lte => after "<=" "" ""
    | .gt => after ">" "" ""
    | .gte => after ">=" "" ""
    | .contains => after "=" "*" "*"
    | .notContains => do return "NOT " ++ (← after "=" "*" "*")
    | .startsWith => after "=" "" "*"
    | .endsWith => after "=" "*" ""
    | .isNone => .ok ("NOT " ++ field ++ "=*")
    | .isNotNone => .ok (field ++ "=*")
    | _ => .error (.construct platform ("regex on field " ++ field) .hard)

def oneOf (field : String) (values : List Value) : Except RenderError String := do
  let parts ← values.mapM (quoted "" · "")
  return field ++ " IN (" ++ join ", " parts ++ ")"

/-- The comparisons, for a platform that is named in errors. -/
def clauses (platform : String) : Clauses :=
  ⟨scalar platform, some oneOf⟩

def functionText (function : PipeFunction) : String :=
  "| " ++ function.name ++
    (if function.args.isEmpty then "" else " " ++ join " " function.args) ++
    (if function.groupBy.isEmpty then "" else " by " ++ join ", " function.groupBy)

def functionsText (functions : List PipeFunction) : String :=
  join " " (functions.map functionText)

def form (repository : Repository) (strict : Bool) : QueryForm where
  platform := "splunk"
  repository
  clauses := clauses "splunk"
  strict
  commentOpening := "```"
  commentClosing := "```"
  functions? := some functionsText

/-- How the signatures of CrowdStrike mappings are made. -/
def crowdStrikeSignature : SignatureForm :=
  ⟨.set, .pairs "=" " " true ["event_simpleName"]⟩

/-- How CrowdStrike searches are rendered. -/
def crowdStrikeForm (repository : Repository) (strict : Bool) : QueryForm where
  platform := "crowdstrike"
  repository
  clauses := clauses "crowdstrike"
  strict
  commentOpening := "`"
  commentClosing := "`"
  functions? := some functionsText

end Detection.Spl

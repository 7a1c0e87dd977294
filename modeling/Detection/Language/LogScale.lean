import Detection.Json
import Detection.Source

/-!
# LogScale queries and alerts

A query is a filter and a pipeline, none of whose stages is understood. An alert
is a JSON document that holds a query beside its name and description.
-/
namespace Detection.LogScale

open Text Lexer

/-- Backslashes and double quotes are escaped between double quotes. -/
def escaping : Escaping := ⟨fun
  | .doubleQuoted => [Escaping.backslash "\\\""]
  | _ => []⟩

def isFieldStart (c : Char) : Bool :=
  Dialect.isNameStart c || c == '#' || c == '@'

/-- The characters of a value without quotes. -/
def isBare (c : Char) : Bool :=
  !(isSpace c || ['"', '(', ')', '|', '=', '!', '<', '>'].contains c)

def dialect : Dialect where
  field := name? isFieldStart fun c => isFieldStart c || c.isDigit || c == '.'
  operators := Dialect.commonComparisons
  wildcard := "*"
  bare? := some isBare
  doubleQuotes := true
  slashes := true
  connectives := Dialect.commonConnectives
  keywords := true
  implicitAnd := true
  escaping := escaping

/-- The part of a filter that names the kind of event. -/
def selectors : List Selector :=
  [{ key := "event_simpleName"
     pattern := .seq [.literal "#event_simpleName", .spaces, .char '=', .spaces,
       .named "value" (.either Selector.doubleQuotedPattern
         (.many1 (.one fun c => !(isSpace c || c == '(' || c == ')' || c == '|'))))] }]

/-- How the signatures of mappings are made. -/
def signature : SignatureForm :=
  ⟨.set, .pairs "=" " " false ["event_simpleName"]⟩

def read (repository : Repository) (text : String) (info : Option Meta) :
    Except ReadError Query := do
  let (filter, stages) := Pipeline.split text
  let (hints, filter) := Selector.extract selectors filter
  let tokens ← dialect.read filter
  Query.ofTokens repository tokens hints (Meta.initial.merge? info) { notSupported := stages }

/-- The entries of an alert that count. -/
structure Alert where
  name : String := ""
  description : String := ""
  query : String := ""

def Alert.withEntry (alert : Alert) (name : String) (value : Json) : Option Alert :=
  if Json.named name "name" then
    (Json.text? alert.name value).map ({ alert with name := · })
  else if Json.named name "description" then
    (Json.text? alert.description value).map ({ alert with description := · })
  else if Json.named name "query" then
    (Json.fold? (fun old name value =>
      if Json.named name "queryString" then Json.text? old value else some old)
      alert.query value).map ({ alert with query := · })
  else some alert

/-- Read an alert. An error in its query is reported with the alert's metadata. -/
def readAlert (repository : Repository) (text : String) (info : Option Meta) :
    Except ReadError Query := do
  let some alert := (Json.read? text).bind (Json.fold? Alert.withEntry {})
    | throw ⟨.alertDocument, none⟩
  let own : Meta := { title := alert.name, description := alert.description }
  let own := own.merge? info
  if (trim alert.query).isEmpty then throw ⟨.alertQuery, some own⟩
  (read repository alert.query (some own)).mapError fun error =>
    { error with info := error.info <|> some own }

end Detection.LogScale

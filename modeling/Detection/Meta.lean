import Detection.Text.Blank
import Detection.Text.LetterCase

/-!
# Rule metadata

What a detection rule says about itself. A rule that is read from a bare query
starts from defaults, to which the metadata of the request is then added: a
request's entry wins wherever it is not empty.
-/
namespace Detection

open Text

def severityNames : List String := ["critical", "high", "medium", "low"]

/-- The severity that a text names in any letter case, and otherwise the lowest. -/
def parseSeverity (text : String) : String :=
  let name := lower (trim text)
  if severityNames.contains name then name else "low"

/-- Hints on the log source, by key. A key occurs once. -/
abbrev Hints := List (String × List String)

/-- Add a value to the hints under a key. -/
def Hints.add (key value : String) : Hints → Hints
  | [] => [(key, [value])]
  | (name, values) :: others =>
    if name == key then (name, values ++ [value]) :: others
    else (name, values) :: Hints.add key value others

/-- The metadata of a rule. -/
structure Meta where
  id : String := ""
  title : String := ""
  description : String := ""
  author : String := ""
  date : String := ""
  license : String := ""
  severity : String := ""
  status : String := ""
  references : List String := []
  tags : List String := []
  falsePositives : List String := []
  /-- The source mappings that the query was resolved to. -/
  mappingIds : List String := []
  /-- The log sources that the query or its envelope names. -/
  logSources : Hints := []
  /-- The fields that the query uses. -/
  queryFields : List String := []
  deriving Repr, Inhabited

namespace Meta

/-- The identity that a rule without one is given. -/
def generatedId : String := "00000000-0000-4000-8000-000000000000"

/-- The date that a rule without one is given. -/
def generatedDate : String := "1970-01-01"

/-- The name of the mapping that every repository has. -/
def defaultMapping : String := "default"

/-- The metadata that a rule starts from. -/
def initial : Meta where
  id := generatedId
  date := generatedDate
  license := "DRL 1.1"
  severity := "low"
  status := "stable"
  mappingIds := [defaultMapping]

/-- The second text unless it is empty. -/
def prefer (old new : String) : String :=
  if new == "" then old else new

/-- The second list unless it is empty. -/
def preferList (old new : List String) : List String :=
  if new.isEmpty then old else new

/-- Add the entries of other metadata that are not empty. -/
def merge (own other : Meta) : Meta :=
  { own with
    id := prefer own.id other.id
    title := prefer own.title other.title
    description := prefer own.description other.description
    author := prefer own.author other.author
    date := prefer own.date other.date
    license := prefer own.license other.license
    status := prefer own.status other.status
    severity := if other.severity == "" then own.severity else parseSeverity other.severity
    references := preferList own.references other.references
    tags := preferList own.tags other.tags
    falsePositives := preferList own.falsePositives other.falsePositives }

/-- Add the entries of other metadata, if there is any. -/
def merge? (own : Meta) : Option Meta → Meta
  | none => own
  | some other => own.merge other

end Meta

end Detection

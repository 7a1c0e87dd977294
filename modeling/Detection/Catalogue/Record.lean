import Detection.Catalogue.Repository
import Detection.Text.Path
import Detection.Yaml.Decode

/-!
# Mapping records and their files

A mapping is written as a YAML record. The records of a platform are the files
of one directory, taken in the order of their names.
-/
namespace Detection

open Text

/-- Why a text is no mapping record. -/
inductive RecordError
  | malformed (fault : Yaml.Fault)
  | missingSource
  deriving Repr

/-- The message for a text that is no record. -/
def RecordError.message : RecordError → String
  | malformed fault => fault.message
  | missingSource => "missing source id"

/-- The entries of a record that count. -/
structure RecordContent where
  platform : String := ""
  source : String := ""
  logSource : List (String × List String) := []
  defaultLogSource : List (String × String) := []
  fieldMapping : List (String × List String) := []

/-- The names of the entries of a record that count. -/
def recordNames : List String :=
  ["platform", "source", "log_source", "default_log_source", "field_mapping"]

def RecordContent.withEntry (content : RecordContent) (key : String) (node : Yaml.Node) :
    Yaml.Decoding RecordContent := do
  match key with
  | "platform" => return { content with platform := (← node.text?).getD "" }
  | "source" => return { content with source := (← node.text?).getD "" }
  | "log_source" =>
    return { content with logSource := (← node.listTable? Yaml.Node.textOrTexts?).getD [] }
  | "default_log_source" =>
    return { content with defaultLogSource := (← node.textTable?).getD [] }
  | "field_mapping" =>
    return { content with fieldMapping := (← node.listTable? Yaml.Node.textOrTexts?).getD [] }
  | _ => return content

def SourceMapping.ofText (form : SignatureForm) (text : String) :
    Except RecordError SourceMapping := do
  let decoding : Yaml.Decoding RecordContent := do
    (← Yaml.document recordNames text).foldlM
      (fun content (key, node) => content.withEntry key node) {}
  let content ← decoding.finish.mapError .malformed
  if (trim content.source).isEmpty then throw .missingSource
  return {
    id := content.source
    signature := form.make content.logSource content.defaultLogSource
    fields := FieldTable.addAll {} content.fieldMapping }

/-- Files by path, directories that may have none, and how a file that is not
there is reported. -/
structure FileSet where
  files : List (String × String)
  directories : List String := []
  absence : String := "file does not exist"

namespace FileSet

/-- The names of the files directly in a directory, in order; nothing if there is
no such directory. -/
def list? (set : FileSet) (directory : String) : Option (List String) :=
  let inside := set.files.filterMap fun (path, _) =>
    dropLeading? (directory.toList ++ ['/']) path.toList
  if inside.isEmpty && !set.directories.contains directory then none
  else
    let names := (inside.filter fun name => !name.contains '/').map String.ofList
    some (names.mergeSort fun a b => decide (a ≤ b))

def get? (set : FileSet) (path : String) : Option String :=
  set.files.lookup path

/-- Replace the text of a file, or remove it. -/
def put (set : FileSet) (path : String) (text? : Option String) : FileSet :=
  { set with files := match text? with
    | some text => putEntry path text set.files
    | none => set.files.filter (·.1 != path) }

end FileSet

/-- Why the mappings of a platform cannot be loaded. -/
inductive LoadError
  | noDirectory (directory absence : String)
  | badRecord (path : String) (error : RecordError)
  deriving Repr

/-- The message for mappings that cannot be loaded. -/
def LoadError.message : LoadError → String
  | noDirectory directory absence =>
    "read mappings " ++ directory ++ ": open " ++ directory ++ ": " ++ absence
  | badRecord path error => "mapping " ++ path ++ ": " ++ error.message

/-- Whether a file holds a mapping record. -/
def isRecordFile (name : String) : Bool :=
  let ending := lower (extensionOf name)
  ending == ".yml" || ending == ".yaml"

/-- Load the mappings of a platform from a directory. -/
def Repository.load (set : FileSet) (directory platform : String) (form : SignatureForm) :
    Except LoadError Repository := do
  match set.list? directory with
  | none => throw (.noDirectory directory set.absence)
  | some names =>
    let records ← (names.filter isRecordFile).mapM fun name =>
      let path := directory ++ "/" ++ name
      (SourceMapping.ofText form ((set.get? path).getD "")).mapError (.badRecord path)
    return .ofRecords platform records

end Detection

import Detection.Catalogue.Fields
import Detection.Catalogue.Signature
import Detection.Token

/-!
# Mapping repositories

All mappings of one platform. A query is served by the mappings whose sources
fit its hints and whose fields it uses; where none is suitable the default
mapping serves it, which knows the fields of all.
-/
namespace Detection

/-- The fields of one kind of data source on a platform. -/
structure SourceMapping where
  id : String
  signature : Option Signature
  fields : FieldTable
  deriving Repr, Inhabited

/-- The mappings of a platform, with the default one apart. -/
structure Repository where
  platform : String
  mappings : List SourceMapping
  default : SourceMapping
  deriving Repr, Inhabited

namespace Repository

/-- The first record under each id, the default ones left out. -/
def firstRecords (records : List SourceMapping) : List SourceMapping :=
  (records.filter (·.id != Meta.defaultMapping)).foldl
    (fun kept record => if kept.any (·.id == record.id) then kept else kept ++ [record]) []

/-- Build a repository. The last default record counts. Its own entries come
first in the default mapping, then those of the other records in their order. -/
def ofRecords (platform : String) (records : List SourceMapping) : Repository :=
  let mappings := firstRecords records
  let declared := (records.filter (·.id == Meta.defaultMapping)).getLast?
  let own : FieldTable :=
    (declared.map fun record => FieldTable.mergeMissing {} record.fields).getD {}
  { platform
    mappings
    default :=
      { id := Meta.defaultMapping
        signature := some ((declared.bind (·.signature)).getD (.set [] ""))
        fields := mappings.foldl (fun table record => table.mergeMissing record.fields) own } }

def get? (repository : Repository) (id : String) : Option SourceMapping :=
  if id == Meta.defaultMapping then some repository.default
  else repository.mappings.find? (·.id == id)

/-- A non-empty choice of mappings, the default one in place of none. -/
def orDefault (repository : Repository) (chosen : List SourceMapping) : List SourceMapping :=
  if chosen.isEmpty then [repository.default] else chosen

/-- The mappings with some ids, each once. -/
def select (repository : Repository) (ids : List String) : List SourceMapping :=
  repository.orDefault (ids.eraseDups.filterMap repository.get?)

/-- Whether a mapping's signature accepts hints. A mapping has to have one. -/
def acceptsHints (hints : Hints) (mapping : SourceMapping) : Except Defect Bool :=
  match mapping.signature with
  | some signature => .ok (signature.accepts hints)
  | none => .error .missing

/-- Whether some mapping accepts hints; those behind it are not asked. -/
def anyAccepts (hints : Hints) : List SourceMapping → Except Defect Bool
  | [] => .ok false
  | mapping :: others => do
    if ← acceptsHints hints mapping then return true else anyAccepts hints others

/-- The mappings that serve a query with some fields. Hints that no mapping
accepts are ignored: a query is better served by its fields alone than not. -/
def resolve (repository : Repository) (required : List String) (hints : Hints) :
    Except Defect (List SourceMapping) := do
  let useHints ← if hints.isEmpty then .ok false else anyAccepts hints repository.mappings
  let suitable ← repository.mappings.filterM fun mapping => do
    if useHints then
      if ← acceptsHints hints mapping then return mapping.fields.knowsAll required
      else return false
    else return mapping.fields.knowsAll required
  return repository.orDefault suitable

end Repository

/-- A field with the generic names that some mappings give it. -/
def Field.withMappings (field : Field) (mappings : List SourceMapping) : Field :=
  mappings.foldl (fun field mapping =>
    match mapping.fields.genericName? field.name with
    | some generic => field.withGenericName mapping.id generic
    | none => field) field

/-- A token with the generic names of its field. -/
def Token.withMappings (mappings : List SourceMapping) : Token → Token
  | .leaf (.comparison field operator value wildcards) =>
    .leaf (.comparison (field.withMappings mappings) operator value wildcards)
  | token => token

end Detection

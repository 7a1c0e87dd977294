import Detection.Entry

/-!
# Field tables

A field table connects the generic name of a field with the names that one
platform uses for it. It is kept in both directions: forward to write a query
for the platform, backward to recognise the fields of a query that was written
for it.
-/
namespace Detection

/-- The names of fields on a platform. -/
structure FieldTable where
  /-- The names on the platform for each generic name. -/
  forward : List (String × List String) := []
  /-- The generic name for each name on the platform. -/
  backward : List (String × String) := []
  deriving Repr, Inhabited, DecidableEq

namespace FieldTable

/-- The names on the platform for a generic name, none if it has no entry. -/
def platformNames (table : FieldTable) (generic : String) : List String :=
  (table.forward.lookup generic).getD []

/-- The generic name of a field of the platform. -/
def genericName? (table : FieldTable) (name : String) : Option String :=
  table.backward.lookup name

/-- Whether a generic name has an entry. -/
def has (table : FieldTable) (generic : String) : Bool :=
  (table.forward.lookup generic).isSome

/-- Whether all of some names on the platform are known. -/
def knowsAll (table : FieldTable) (names : List String) : Bool :=
  names.all fun name => (table.genericName? name).isSome

/-- Set the names for a generic name. Without any, the platform uses the generic
name itself. The names become known under this generic name, whatever they were
known under before. -/
def add (table : FieldTable) (generic : String) (names : List String) : FieldTable :=
  let names := if names.isEmpty then [generic] else names
  { forward := putEntry generic names table.forward
    backward := names.foldl (fun backward name => putEntry name generic backward) table.backward }

/-- Set the names for several generic names, one after the other. -/
def addAll (table : FieldTable) (entries : List (String × List String)) : FieldTable :=
  entries.foldl (fun table (generic, names) => table.add generic names) table

/-- The table with an entry of another one, unless it has one for that generic
name. Names that are known already keep their generic name. -/
def addMissing (table : FieldTable) (generic : String) (names : List String) : FieldTable :=
  if table.has generic then table
  else
    { forward := table.forward ++ [(generic, names)]
      backward := names.foldl (fun backward name =>
        if (backward.lookup name).isSome then backward else backward ++ [(name, generic)])
        table.backward }

/-- Fill up a table with the entries of another one. -/
def mergeMissing (table other : FieldTable) : FieldTable :=
  other.forward.foldl (fun table (generic, names) => table.addMissing generic names) table

end FieldTable

end Detection

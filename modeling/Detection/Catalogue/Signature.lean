import Detection.Meta
import Detection.Text.Pieces

/-!
# Log-source signatures

A signature says which data sources a mapping is for. The hints that a query
gives about its sources are compared with it without regard to letter case. Its
display form stands in front of the queries that are written for the mapping.
-/
namespace Detection

open Text

/-- The data sources of a mapping, and how they are displayed. -/
inductive Signature
  /-- Each hinted value has to be among the values of its key. -/
  | set (sources : List (String × List String)) (display : String)
  /-- Each hinted value has to be the one value of its key. -/
  | exact (sources : List (String × String)) (display : String)
  deriving Repr, Inhabited

namespace Signature

def accepts : Signature → Hints → Bool
  | set sources _, hints => hints.all fun (key, values) =>
    values.all fun value => ((sources.lookup key).getD []).any (equalFold · value)
  | exact sources _, hints => hints.all fun (key, values) =>
    match sources.lookup key with
    | some known => values.all (equalFold known ·)
    | none => false

def display : Signature → String
  | set _ display => display
  | exact _ display => display

def sources : Signature → List (String × List String)
  | set sources _ => sources
  | exact sources _ => sources.map fun (key, value) => (key, [value])

end Signature

/-- How the display form is made from the default log source of a record. -/
inductive DisplayForm
  | nothing
  /-- All pairs of key and value, some keys first and the others in order. -/
  | pairs (separator joiner : String) (quoted : Bool) (order : List String)
  /-- The value of one key. -/
  | valueOf (key : String)
  deriving Repr, Inhabited

/-- The keys of a table: those of a given order first, each once, then the others
in alphabetical order. -/
def orderedKeys (table : List (String × String)) (order : List String) : List String :=
  let first := (order.filter fun key => (table.lookup key).isSome).eraseDups
  let others := (table.map Prod.fst).filter fun key => !first.contains key
  first ++ others.mergeSort (fun a b => decide (a ≤ b))

/-- The display form of a default log source. -/
def DisplayForm.apply (form : DisplayForm) (defaults : List (String × String)) : String :=
  if defaults.isEmpty then ""
  else match form with
    | nothing => ""
    | pairs separator joiner quoted order =>
      join joiner ((orderedKeys defaults order).map fun key =>
        let value := (defaults.lookup key).getD ""
        key ++ separator ++ (if quoted then "\"" ++ value ++ "\"" else value))
    | valueOf key => (defaults.lookup key).getD ""

/-- How hints are compared with the sources of a record. -/
inductive SignatureKind
  | set
  | exact
  | absent
  deriving DecidableEq, Repr, Inhabited

/-- How the signatures of a platform are made from its records. -/
structure SignatureForm where
  kind : SignatureKind := .set
  display : DisplayForm := .nothing
  deriving Repr, Inhabited

/-- The signature of a record. An exact one takes the first value of each key. -/
def SignatureForm.make (form : SignatureForm) (sources : List (String × List String))
    (defaults : List (String × String)) : Option Signature :=
  match form.kind with
  | .set => some (.set sources (form.display.apply defaults))
  | .exact =>
    some (.exact (sources.filterMap fun (key, values) => values.head?.map (key, ·))
      (form.display.apply defaults))
  | .absent => none

end Detection

import Detection.Catalogue.Record
import Detection.Indicator

/-!
# Searches for indicators

A platform searches for an indicator in the fields that it has for its kind.
Indicators of one kind form a group; many indicators are spread over several
queries. Kinds without a field are left out.
-/
namespace Detection

open Text

/-- How a platform writes a search for indicators. -/
structure IndicatorForm where
  platform : String
  /-- What stands between a field and the opening quote. -/
  sign : String
  quote : String
  /-- The word between alternatives. -/
  or : String

/-- How CrowdStrike searches are written. -/
def crowdStrikeIndicators : IndicatorForm := ⟨"crowdstrike", "=", "\"", " OR "⟩

def qualysIndicators : IndicatorForm := ⟨"qualys", ":", "`", " or "⟩

/-- A platform that searches for indicators, with its fields for each kind. -/
structure IndicatorSearch where
  form : IndicatorForm
  fields : List (IndicatorKind × List String)

/-- Why there are no queries for some indicators. -/
inductive IndicatorFault
  /-- No indicator has a field on the platform. -/
  | nothing
  | defect (cause : Defect)
  deriving Repr

/-- The message for indicators without queries. -/
def IndicatorFault.message : IndicatorFault → String
  | nothing => "no indicator maps to a platform field"
  | defect cause => cause.message?.getD ""

/-- Lists of a given length that a list falls into; the last may be shorter. -/
def chunks {α : Type} (size : Nat) : List α → List (List α)
  | [] => []
  | item :: others =>
    (item :: others.take (size - 1)) :: chunks size (others.drop (size - 1))
termination_by items => items.length
decreasing_by simp only [List.length_drop, List.length_cons]; omega

/-- The indicators for values with the names of their kinds. A value under another name
is none. -/
def Indicator.ofNamed (values : List (String × String)) : List Indicator :=
  values.filterMap fun value => (IndicatorKind.ofName? value.1).map (⟨·, value.2⟩)

namespace IndicatorSearch

def fieldsOf (search : IndicatorSearch) (kind : IndicatorKind) : List String :=
  (search.fields.lookup kind).getD []

/-- The indicators that have a field, ordered by kind. -/
def covered (search : IndicatorSearch) (indicators : List Indicator) : List Indicator :=
  IndicatorKind.all.flatMap fun kind =>
    if (search.fieldsOf kind).isEmpty then [] else indicators.filter (·.kind = kind)

def comparison (search : IndicatorSearch) (field value : String) : String :=
  field ++ search.form.sign ++ search.form.quote ++ value ++ search.form.quote

def comparisons (search : IndicatorSearch) (indicator : Indicator) : List String :=
  (search.fieldsOf indicator.kind).map (search.comparison · indicator.value)

/-- The group for some indicators of one kind, if there is anything to compare. -/
def group? (search : IndicatorSearch) (indicators : List Indicator) : Option String :=
  match indicators.flatMap search.comparisons with
  | [] => none
  | parts => some ("(" ++ join search.form.or parts ++ ")")

/-- The groups of a query, one for each run of indicators of one kind. -/
def groups (search : IndicatorSearch) (indicators : List Indicator) : List String :=
  (indicators.splitBy (·.kind == ·.kind)).filterMap search.group?

/-- A query for some indicators. It needs a group. -/
def query (search : IndicatorSearch) (indicators : List Indicator) : Except Defect String :=
  match search.groups indicators with
  | [] => .error .missing
  | [single] => .ok single
  | several => .ok ("(" ++ join search.form.or several ++ ")")

/-- The queries for some indicators with a limited number of them in each, where a
limit below one is none. -/
def queries (search : IndicatorSearch) (indicators : List Indicator) (limit : Int) :
    Except IndicatorFault (List String) :=
  let covered := search.covered indicators
  if covered.isEmpty then .error .nothing
  else
    let size := if limit ≤ 0 then covered.length else limit.toNat
    ((chunks size covered).mapM search.query).mapError .defect

/-- A search with fields for kinds that are given by their names. Other names are no
kinds. -/
def ofNamed (form : IndicatorForm) (fields : List (String × List String)) : IndicatorSearch where
  form
  fields := fields.filterMap fun entry => (IndicatorKind.ofName? entry.1).map (·, entry.2)

/-- The queries for values with the names of their kinds. -/
def queriesNamed (search : IndicatorSearch) (values : List (String × String)) (limit : Int) :
    Except IndicatorFault (List String) :=
  search.queries (Indicator.ofNamed values) limit

end IndicatorSearch

/-- Why the fields for indicators cannot be loaded. -/
inductive IndicatorLoadError
  | absent (platform path absence : String)
  | malformed (platform : String) (fault : Yaml.Fault)
  | unknownKind (platform name : String)
  deriving Repr

/-- The message for fields that cannot be loaded. -/
def IndicatorLoadError.message : IndicatorLoadError → String
  | absent platform path absence => "cti " ++ platform ++ ": open " ++ path ++ ": " ++ absence
  | malformed platform fault => "cti " ++ platform ++ ": " ++ fault.message
  | unknownKind platform name =>
    "cti " ++ platform ++ ": unknown indicator type " ++ quote name

def indicatorFields (text : String) : Except Yaml.Fault (List (String × List String)) :=
  Yaml.Decoding.finish do
    (← Yaml.document ["platform", "fields"] text).foldlM (fun fields (key, node) => do
      match key with
      | "platform" => let _ ← node.text?; return fields
      | "fields" => return (← node.listTable? Yaml.Node.texts?).getD []
      | _ => return fields) []

/-- Load the fields for indicators of a platform. -/
def IndicatorSearch.load (set : FileSet) (form : IndicatorForm) :
    Except IndicatorLoadError IndicatorSearch := do
  let path := "cti/" ++ form.platform ++ ".yml"
  match set.get? path with
  | none => throw (.absent form.platform path set.absence)
  | some text =>
    let table ← (indicatorFields text).mapError (.malformed form.platform)
    let fields ← table.mapM fun (name, fields) =>
      match IndicatorKind.ofName? (lower name) with
      | some kind => pure (kind, fields)
      | none => throw (.unknownKind form.platform name)
    return { form, fields }

end Detection

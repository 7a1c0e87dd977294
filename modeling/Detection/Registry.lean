import Detection.Indicator.Search
import Detection.Language.Aql
import Detection.Language.Axon
import Detection.Language.Hunters
import Detection.Language.LogScale
import Detection.Language.Lucene
import Detection.Language.Sigma.Document
import Detection.Language.Sigma.Rule
import Detection.Language.Spl
import Detection.Language.Xql

/-!
# The platforms

All platforms of the library with the mappings that they use. A registry is
loaded from a catalogue as a whole: if some mappings cannot be loaded, all that
is wrong is reported together.
-/
namespace Detection

open Text

/-- The languages that can be read. -/
inductive SourceLanguage
  | logScale
  | logScaleAlert
  | qradar
  | sigma
  | splunk
  deriving DecidableEq, Repr, Inhabited

namespace SourceLanguage

/-- All languages that can be read, by name. -/
def all : List SourceLanguage := [logScale, logScaleAlert, qradar, sigma, splunk]

def name : SourceLanguage → String
  | logScale => "logscale"
  | logScaleAlert => "logscale_alert"
  | qradar => "qradar"
  | sigma => "sigma"
  | splunk => "splunk"

def ofName? (text : String) : Option SourceLanguage :=
  all.find? (·.name == text)

end SourceLanguage

/-- The languages that can be rendered. -/
inductive TargetLanguage
  | xql
  | crowdStrike
  | hunters
  | axon
  | openSearch
  | openSearchMonitor
  | sigma
  | splunk
  deriving DecidableEq, Repr, Inhabited

namespace TargetLanguage

/-- All languages that can be rendered, by name. -/
def all : List TargetLanguage :=
  [xql, crowdStrike, hunters, axon, openSearch, openSearchMonitor, sigma, splunk]

def name : TargetLanguage → String
  | xql => "cortex_xql"
  | crowdStrike => "crowdstrike"
  | hunters => "hunters"
  | axon => "logrhythm_axon"
  | openSearch => "opensearch"
  | openSearchMonitor => "opensearch_rule"
  | sigma => "sigma"
  | splunk => "splunk"

def ofName? (text : String) : Option TargetLanguage :=
  all.find? (·.name == text)

end TargetLanguage

/-- The mappings of all platforms. -/
structure Registry where
  splunk : Repository
  crowdStrike : Repository
  qradar : Repository
  axon : Repository
  openSearch : Repository
  xql : Repository
  hunters : Repository
  sigma : Repository
  logScale : Repository
  indicators : List IndicatorSearch

/-- Why a registry cannot be loaded. -/
structure RegistryError where
  mappings : List LoadError := []
  indicators : List IndicatorLoadError := []

/-- The message for a registry that cannot be loaded. -/
def RegistryError.message (error : RegistryError) : String :=
  "load mappings: " ++ join "; "
    (error.mappings.map LoadError.message ++ error.indicators.map IndicatorLoadError.message)

/-- The error of a computation that failed. -/
def errorOf {ε α : Type} : Except ε α → Option ε
  | .ok _ => none
  | .error error => some error

namespace Registry

def load (set : FileSet) : Except RegistryError Registry :=
  let repository (name : String) (form : SignatureForm) := Repository.load set name name form
  let splunk := repository "splunk" Spl.signature
  let crowdStrike := repository "crowdstrike" Spl.crowdStrikeSignature
  let qradar := repository "qradar" Aql.signature
  let axon := repository "logrhythm_axon" Axon.signature
  let openSearch := repository "opensearch" Lucene.signature
  let xql := repository "cortex_xql" Xql.signature
  let hunters := repository "hunters" Hunters.signature
  let sigma := repository "sigma" Sigma.signature
  let logScale := repository "logscale" LogScale.signature
  let crowdStrikeIocs := IndicatorSearch.load set crowdStrikeIndicators
  let qualysIocs := IndicatorSearch.load set qualysIndicators
  let all : Except LoadError Registry := do
    return {
      splunk := ← splunk
      crowdStrike := ← crowdStrike
      qradar := ← qradar
      axon := ← axon
      openSearch := ← openSearch
      xql := ← xql
      hunters := ← hunters
      sigma := ← sigma
      logScale := ← logScale
      indicators := [] }
  match all, crowdStrikeIocs, qualysIocs with
  | .ok registry, .ok first, .ok second => .ok { registry with indicators := [first, second] }
  | _, _, _ =>
    .error {
      mappings := [splunk, crowdStrike, qradar, axon, openSearch, xql, hunters, sigma,
        logScale].filterMap errorOf
      indicators := [crowdStrikeIocs, qualysIocs].filterMap errorOf }

def read (registry : Registry) (language : SourceLanguage) (text : String) (info : Option Meta) :
    Except ReadError Query :=
  match language with
  | .logScale => LogScale.read registry.logScale text info
  | .logScaleAlert => LogScale.readAlert registry.logScale text info
  | .qradar => Aql.read registry.qradar text info
  | .sigma => Sigma.read registry.sigma text info
  | .splunk => Spl.read registry.splunk text info

def render (registry : Registry) (language : TargetLanguage) (strict : Bool) (query : Query) :
    Except RenderError (List Rendered) :=
  match language with
  | .xql => (Xql.form registry.xql strict).render query
  | .crowdStrike => (Spl.crowdStrikeForm registry.crowdStrike strict).render query
  | .hunters => (Hunters.form registry.hunters strict).render query
  | .axon => (Axon.form registry.axon).render query
  | .openSearch => (Lucene.form registry.openSearch strict).render query
  | .openSearchMonitor => (Lucene.monitorForm registry.openSearch strict).render query
  | .sigma => Sigma.render ⟨"sigma", registry.sigma, strict⟩ query
  | .splunk => (Spl.form registry.splunk strict).render query

/-- The search for indicators on a platform. -/
def indicatorSearch? (registry : Registry) (name : String) : Option IndicatorSearch :=
  registry.indicators.find? (·.form.platform == name)

end Registry

end Detection

import Detection.Service
import Mathlib.Data.List.Forall2

/-!
# The service and its history

What a request does to the service is to record outcomes of conversions, and nothing else: the
rule of a single conversion, the rules of a batch, or none. Which outcomes these are follows from
the request and the registry alone. The history is never asked on the way, so that services which
differ in it only give the same answers, except where the history itself is shown.
-/
namespace Detection

open Text

/-! ## Paths -/

def Route.path : Route → String
  | health => "/healthz"
  | platforms => "/api/v1/platforms"
  | convert => "/api/v1/translate"
  | convertBatch => "/api/v1/translate/batch"
  | history => "/api/v1/history"
  | indicators => "/api/v1/iocs"

namespace Service

end Service

/-! ## What a request asks for -/

namespace HttpRequest

/-- A rule that a request asks to convert. Its body has the form of such a request, and names a
query and both platforms. -/
structure AsksFor (request : HttpRequest) (rule : ConversionRequest) : Prop where
  posted : request.method = "POST"
  reached : targetPath request.target = "/api/v1/translate"
  decoded : request.decode
    (Json.fold? conversionEntry { query := "", source := "", target := "" }) = .ok rule
  complete : rule.query ≠ "" ∧ rule.source ≠ "" ∧ rule.target ≠ ""

end HttpRequest

namespace Service

variable (registry : Registry) (strict : Bool) {request : HttpRequest}

end Service

def Registry.bare : Registry where
  splunk := .ofRecords "splunk" []
  crowdStrike := .ofRecords "crowdstrike" []
  qradar := .ofRecords "qradar" []
  axon := .ofRecords "logrhythm_axon" []
  openSearch := .ofRecords "opensearch" []
  xql := .ofRecords "cortex_xql" []
  hunters := .ofRecords "hunters" []
  sigma := .ofRecords "sigma" []
  logScale := .ofRecords "logscale" []
  indicators := []

end Detection

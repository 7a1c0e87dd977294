import Detection.Registry

/-!
# Converting rules

A rule is read in one language and rendered in another. A rule whose two
languages are the same is passed through. An error carries the identity of its
rule, so that the rules of a batch can be told apart.
-/
namespace Detection

open Text

/-- A rule that is to be converted. -/
structure ConversionRequest where
  query : String
  source : String
  target : String
  info : Option Meta := none
  deriving Repr, Inhabited

/-- A converted rule. -/
structure Converted where
  ruleId : String
  title : String
  source : String
  target : String
  outputs : List Rendered
  deriving Repr, Inhabited

/-- Why a platform is not known. -/
inductive UnknownPlatform
  | reader (name : String)
  | renderer (name : String)
  | indicators (name : String)
  deriving Repr

/-- The message for a platform that is not known. -/
def UnknownPlatform.message : UnknownPlatform → String
  | reader name => "unknown platform: no parser for " ++ quote name
  | renderer name => "unknown platform: no renderer for " ++ quote name
  | indicators name => "unknown platform: no indicator renderer for " ++ quote name

/-- Why a rule cannot be converted. -/
inductive ConversionFault
  | cancelled
  | platform (unknown : UnknownPlatform)
  | read (fault : ReadFault)
  | render (error : RenderError)

/-- The message for work that was cancelled. -/
def cancelledMessage : String := "context canceled"

def ConversionFault.message : ConversionFault → String
  | cancelled => cancelledMessage
  | platform unknown => unknown.message
  | read fault => "parse: " ++ fault.message
  | render error => "render: " ++ error.message

/-- A fault with the identity of its rule. -/
structure RuleError where
  ruleId : String
  title : String
  source : String
  target : String
  fault : ConversionFault

/-- The message for a rule that cannot be converted. -/
def RuleError.message (error : RuleError) : String :=
  "translate " ++ error.source ++ " -> " ++ error.target ++ " (" ++
    (if error.title == "" then error.ruleId else error.title) ++ "): " ++ error.fault.message

namespace ConversionRequest

/-- The error of a request, with the identity that some metadata gives. -/
def failed (request : ConversionRequest) (info : Option Meta) (fault : ConversionFault) :
    RuleError where
  ruleId := (info.map (·.id)).getD ""
  title := (info.map (·.title)).getD ""
  source := request.source
  target := request.target
  fault

/-- The outcome of a request, with the identity that some metadata gives. -/
def succeeded (request : ConversionRequest) (info : Option Meta) (outputs : List Rendered) :
    Converted where
  ruleId := (info.map (·.id)).getD ""
  title := (info.map (·.title)).getD ""
  source := request.source
  target := request.target
  outputs

def run (request : ConversionRequest) (registry : Registry) (strict : Bool) :
    Except RuleError Converted := do
  match SourceLanguage.ofName? request.source with
  | none => throw (request.failed request.info (.platform (.reader request.source)))
  | some source =>
    if request.source == request.target then
      return request.succeeded request.info [⟨Meta.defaultMapping, request.query⟩]
    match TargetLanguage.ofName? request.target with
    | none => throw (request.failed request.info (.platform (.renderer request.target)))
    | some target =>
      let query ← (registry.read source request.query request.info).mapError fun error =>
        request.failed (error.info.or request.info) (.read error.fault)
      let outputs ← (registry.render target strict query).mapError fun error =>
        request.failed query.info (.render error)
      return request.succeeded query.info outputs

/-- Convert a rule, unless that has been cancelled. -/
def runUnless (request : ConversionRequest) (cancelled : Bool) (registry : Registry)
    (strict : Bool) : Except RuleError Converted :=
  if cancelled then .error (request.failed request.info .cancelled)
  else request.run registry strict

end ConversionRequest

/-- Convert several rules. The outcomes are in the order of the requests; there are
none if the work was cancelled. -/
def convertBatch? (registry : Registry) (strict cancelled : Bool)
    (requests : List ConversionRequest) : Option (List (Except RuleError Converted)) :=
  if cancelled && !requests.isEmpty then none
  else some (requests.map (·.run registry strict))

/-- The message for a batch that was cancelled. -/
def batchCancelledMessage : String := "translate batch: " ++ cancelledMessage

/-- Searches for the indicators of a text. -/
structure IndicatorReport where
  target : String
  indicators : List Indicator
  queries : List String
  deriving Repr

/-- Why there are no searches for the indicators of a text. -/
inductive IndicatorError
  | cancelled
  | platform (unknown : UnknownPlatform)
  | search (fault : IndicatorFault)
  deriving Repr

/-- The message of an indicator error. -/
def IndicatorError.message : IndicatorError → String
  | cancelled => cancelledMessage
  | platform unknown => unknown.message
  | search fault => "render indicators: " ++ fault.message

/-- Search for the indicators of a text on a platform. -/
def searchIndicators (registry : Registry) (text target : String) (limit : Int) (cancelled : Bool) :
    Except IndicatorError IndicatorReport := do
  if cancelled then throw .cancelled
  match registry.indicatorSearch? target with
  | none => throw (.platform (.indicators target))
  | some search =>
    let indicators := Indicator.extract text
    let queries ← (search.queries indicators limit).mapError .search
    return { target, indicators, queries }

end Detection

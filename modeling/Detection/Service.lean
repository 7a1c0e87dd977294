import Detection.Service.History

/-!
# The web service

Rules are converted and indicators are searched over HTTP, with JSON bodies. A
body may be compressed; it is limited in size both as sent and as unpacked.
Every outcome of a conversion is recorded in the history, if there is one.
-/
namespace Detection

open Text

/-- How a body is sent. -/
inductive BodyForm
  | plain
  | packed
  /-- The request says that the body is packed, and it is not. -/
  | mislabelled
  deriving DecidableEq, Repr, Inhabited

/-- A request. The body is given as unpacked. -/
structure HttpRequest where
  method : String
  target : String
  body : String := ""
  form : BodyForm := .plain
  deriving Repr, Inhabited

/-- Whether a request only asks to see something. One that names no method does. -/
def HttpRequest.isGet (request : HttpRequest) : Bool :=
  request.method == "GET" || request.method == ""

/-- A response. Not every one has a document. -/
structure HttpResponse where
  status : Nat
  document : Option Json := none
  deriving Repr, Inhabited

/-- The greatest number of bytes that a body may have. -/
def bodyLimit : Nat := 4 * Nat.pow 2 20

/-- Why a body cannot be taken. -/
inductive BodyError
  | tooLarge
  | unpackedTooLarge
  | archiveTooShort
  | noArchive
  | malformed
  deriving DecidableEq, Repr

/-- The message for a body that cannot be taken. -/
def BodyError.message : BodyError → String
  | tooLarge => "http: request body too large"
  | unpackedTooLarge => "request body exceeds " ++ toString bodyLimit ++ " bytes"
  | archiveTooShort => "invalid gzip body: unexpected EOF"
  | noArchive => "invalid gzip body: gzip: invalid header"
  | malformed => "invalid JSON: json: the document does not have the expected form"

/-- The status of a response to a body that cannot be taken. -/
def BodyError.status : BodyError → Nat
  | tooLarge | unpackedTooLarge => 413
  | _ => 400

/-- The document in the body of a request. -/
def HttpRequest.document (request : HttpRequest) : Except BodyError Json := do
  let size := request.body.utf8ByteSize
  match request.form with
  | .plain => if size > bodyLimit then throw .tooLarge
  | .packed => if size > bodyLimit then throw .unpackedTooLarge
  | .mislabelled => throw (if size < 10 then .archiveTooShort else .noArchive)
  match Json.read? request.body with
  | some document => return document
  | none => throw .malformed

/-- The body of a request, as decoded. -/
def HttpRequest.decode {α : Type} (request : HttpRequest) (decoder : Json.Decoder α) :
    Except BodyError α := do
  match decoder (← request.document) with
  | some value => return value
  | none => throw .malformed

/-! ## Bodies -/

def metaEntry (info : Meta) (name : String) (value : Json) : Option Meta :=
  if Json.named name "id" then (Json.text? info.id value).map ({ info with id := · })
  else if Json.named name "title" then
    (Json.text? info.title value).map ({ info with title := · })
  else if Json.named name "description" then
    (Json.text? info.description value).map ({ info with description := · })
  else if Json.named name "author" then
    (Json.text? info.author value).map ({ info with author := · })
  else if Json.named name "severity" then
    (Json.text? info.severity value).map ({ info with severity := · })
  else if Json.named name "references" then
    (Json.list? (Json.text? "") value).map ({ info with references := · })
  else if Json.named name "tags" then
    (Json.list? (Json.text? "") value).map ({ info with tags := · })
  else some info

def meta? (old : Option Meta) : Json.Decoder (Option Meta)
  | .null => some none
  | value => (Json.fold? metaEntry (old.getD {}) value).map some

/-- An entry of a request for a conversion. -/
def conversionEntry (request : ConversionRequest) (name : String) (value : Json) :
    Option ConversionRequest :=
  if Json.named name "query" then
    (Json.text? request.query value).map ({ request with query := · })
  else if Json.named name "source" then
    (Json.text? request.source value).map ({ request with source := · })
  else if Json.named name "target" then
    (Json.text? request.target value).map ({ request with target := · })
  else if Json.named name "meta" then
    (meta? request.info value).map ({ request with info := · })
  else some request

/-- A rule of a batch. -/
structure BatchRule where
  query : String := ""
  info : Option Meta := none

/-- A request for the conversion of several rules. -/
structure BatchRequest where
  source : String := ""
  target : String := ""
  rules : List BatchRule := []

def batchRuleEntry (rule : BatchRule) (name : String) (value : Json) : Option BatchRule :=
  if Json.named name "query" then (Json.text? rule.query value).map ({ rule with query := · })
  else if Json.named name "meta" then (meta? rule.info value).map ({ rule with info := · })
  else some rule

/-- An entry of a request for several rules. -/
def batchEntry (request : BatchRequest) (name : String) (value : Json) : Option BatchRequest :=
  if Json.named name "source" then
    (Json.text? request.source value).map ({ request with source := · })
  else if Json.named name "target" then
    (Json.text? request.target value).map ({ request with target := · })
  else if Json.named name "rules" then
    (Json.list? (Json.fold? batchRuleEntry {}) value).map ({ request with rules := · })
  else some request

/-- A request for a search for indicators. -/
structure IndicatorRequest where
  text : String := ""
  target : String := ""
  limit : Int := 0

/-- An entry of a request for a search for indicators. -/
def indicatorEntry (request : IndicatorRequest) (name : String) (value : Json) :
    Option IndicatorRequest :=
  if Json.named name "text" then (Json.text? request.text value).map ({ request with text := · })
  else if Json.named name "target" then
    (Json.text? request.target value).map ({ request with target := · })
  else if Json.named name "per_query" then
    (Json.int? request.limit value).map ({ request with limit := · })
  else some request

/-! ## Documents -/

def Json.texts (items : List String) : Json := .array (items.map .string)

def Rendered.json (output : Rendered) : Json :=
  .object [("source_mapping_id", .string output.mapping), ("query", .string output.query)]

def outcomeJson : Except RuleError Converted → Json
  | .ok result => .object ([
      ("rule_id", .string result.ruleId), ("title", .string result.title)] ++
      (if result.outputs.isEmpty then [] else
        [("results", .array (result.outputs.map Rendered.json))]))
  | .error error => .object ([
      ("rule_id", .string error.ruleId), ("title", .string error.title)] ++
      optionalText "error" error.fault.message)

def IndicatorReport.json (report : IndicatorReport) : Json :=
  .object [
    ("target", .string report.target),
    ("indicators", .array (report.indicators.map fun indicator =>
      .object [("type", .string indicator.kind.name), ("value", .string indicator.value)])),
    ("queries", .texts report.queries)]

def HttpResponse.failed (status : Nat) (message : String) : HttpResponse :=
  ⟨status, some (.object [("error", .string message)])⟩

/-- The response to a method that a route does not have. -/
def methodNotAllowed : HttpResponse := ⟨405, none⟩

/-! ## Routes -/

/-- The routes of the service. -/
inductive Route
  | health
  | platforms
  | convert
  | convertBatch
  | history
  | indicators
  deriving DecidableEq, Repr

def route? : String → Option Route
  | "/healthz" => some .health
  | "/api/v1/platforms" => some .platforms
  | "/api/v1/translate" => some .convert
  | "/api/v1/translate/batch" => some .convertBatch
  | "/api/v1/history" => some .history
  | "/api/v1/iocs" => some .indicators
  | _ => none

/-- The bytes of a part of a target; nothing if an escape is malformed. In a query a
plus sign is a blank. -/
def targetBytes? (inQuery : Bool) : List Char → Option (List UInt8)
  | [] => some []
  | '%' :: a :: b :: rest => do
    let byte := UInt8.ofNat ((← hexValue? a) * 16 + (← hexValue? b))
    return byte :: (← targetBytes? inQuery rest)
  | '%' :: _ => none
  | c :: rest => do
    return charBytes (if inQuery && c == '+' then ' ' else c) ++ (← targetBytes? inQuery rest)

/-- Undo the escapes of a part of a target. -/
def unescapeTarget? (inQuery : Bool) (text : List Char) : Option (List Char) :=
  (targetBytes? inQuery text).map charsOfBytes

/-- The part of a target before its question mark, and the part behind it. -/
def cutTarget (target : String) : List Char × List Char :=
  (cutAt? (· == '?') target.toList).getD (target.toList, [])

def targetPath (target : String) : String :=
  let path := (cutTarget target).1
  String.ofList ((unescapeTarget? false path).getD path)

/-- A clean path keeps the slash at its end. -/
def cleanTargetPath (path : String) : String :=
  let clean := cleanPath path
  if path.toList.getLast? == some '/' && clean != "/" then clean ++ "/" else clean

/-- The first value of a parameter of a target. -/
def parameter? (target name : String) : Option String :=
  (splitFrom (· == '&') [] (cutTarget target).2).findSome? fun pair =>
    if pair.isEmpty || pair.contains ';' then none
    else
      let (key, value) := (cutAt? (· == '=') pair).getD (pair, [])
      match unescapeTarget? true key, unescapeTarget? true value with
      | some key, some value =>
        if String.ofList key == name then some (String.ofList value) else none
      | _, _ => none

/-- The value of a decimal number with an optional sign. -/
def decimal? (text : String) : Option Int :=
  let digits := dropSign text.toList
  if digits.isEmpty || !digits.all Char.isDigit then none
  else
    let value := digits.foldl (fun value c => value * 10 + (c.toNat - '0'.toNat)) 0
    some (if text.toList.head? == some '-' then -(value : Int) else value)

/-- How many rows of the history a target asks for. -/
def historyLimit (target : String) : Nat :=
  match (parameter? target "limit").bind decimal? with
  | some limit => if 0 < limit && limit ≤ 1000 then limit.toNat else 50
  | none => 50

/-! ## The service -/

/-- The service. -/
structure Service where
  registry : Registry
  strict : Bool := false
  history : Option HistoryStore := none

namespace Service

def record (service : Service) (outcome : Except RuleError Converted) : Service :=
  { service with history := service.history.map (·.record outcome) }

/-- The status of the response to a conversion. -/
def outcomeStatus : Except RuleError Converted → Nat
  | .ok _ => 200
  | .error error =>
    match error.fault with
    | .platform _ => 400
    | _ => 422

def convert (service : Service) (request : HttpRequest) : HttpResponse × Service :=
  match request.decode (Json.fold? conversionEntry { query := "", source := "", target := "" }) with
  | .error error => (.failed error.status error.message, service)
  | .ok rule =>
    if rule.query == "" || rule.source == "" || rule.target == "" then
      (.failed 400 "query, source and target are required", service)
    else
      let outcome := rule.run service.registry service.strict
      (⟨outcomeStatus outcome, some (outcomeJson outcome)⟩, service.record outcome)

/-- Why the platforms of a batch are not known. -/
def unknownPlatform? (source target : String) : Option UnknownPlatform :=
  if (SourceLanguage.ofName? source).isNone then some (.reader source)
  else if (TargetLanguage.ofName? target).isNone then some (.renderer target)
  else none

def isFailure : Except RuleError Converted → Bool
  | .ok _ => false
  | .error _ => true

def convertBatch (service : Service) (request : HttpRequest) : HttpResponse × Service :=
  match request.decode (Json.fold? batchEntry {}) with
  | .error error => (.failed error.status error.message, service)
  | .ok batch =>
    match unknownPlatform? batch.source batch.target with
    | some unknown => (.failed 400 unknown.message, service)
    | none =>
      let requests := batch.rules.map fun rule =>
        (⟨rule.query, batch.source, batch.target, rule.info⟩ : ConversionRequest)
      let outcomes := requests.map (·.run service.registry service.strict)
      (⟨200, some (.object [
        ("results", .array (outcomes.map outcomeJson)),
        ("failed", .number (toString (outcomes.countP isFailure)))])⟩,
        outcomes.foldl record service)

def searchIndicators (service : Service) (request : HttpRequest) : HttpResponse :=
  match request.decode (Json.fold? indicatorEntry {}) with
  | .error error => .failed error.status error.message
  | .ok search =>
    if trim search.text == "" || search.target == "" then
      .failed 400 "text and target are required"
    else match Detection.searchIndicators service.registry search.text search.target search.limit
        false with
      | .ok report => ⟨200, some report.json⟩
      | .error (.platform unknown) => .failed 400 unknown.message
      | .error error => .failed 422 error.message

def showHistory (service : Service) (target : String) : HttpResponse :=
  match service.history with
  | none => .failed 503 "translation history is not configured"
  | some store =>
    if store.readable then
      ⟨200, some (.array ((store.recent (historyLimit target)).map fun (number, row) =>
        row.json number))⟩
    else .failed 500 store.failure

def showPlatforms (service : Service) : HttpResponse :=
  ⟨200, some (.object [
    ("parsers", .texts (SourceLanguage.all.map (·.name))),
    ("renderers", .texts (TargetLanguage.all.map (·.name))),
    ("cti", .texts (service.registry.indicators.map (·.form.platform)))])⟩

def showHealth (service : Service) : HttpResponse :=
  ⟨200, some (.object [
    ("status", .string "ok"), ("history", .bool service.history.isSome)])⟩

def handleRoute (service : Service) (request : HttpRequest) : Route → HttpResponse × Service
  | .health => (service.showHealth, service)
  | .platforms =>
    (if request.isGet then service.showPlatforms else methodNotAllowed, service)
  | .history =>
    (if request.isGet then service.showHistory request.target else methodNotAllowed,
      service)
  | .indicators =>
    (if request.method == "POST" then service.searchIndicators request else methodNotAllowed,
      service)
  | .convert =>
    if request.method == "POST" then service.convert request else (methodNotAllowed, service)
  | .convertBatch =>
    if request.method == "POST" then service.convertBatch request else (methodNotAllowed, service)

/-- Handle a request. A path that is not clean is redirected. -/
def handle (service : Service) (request : HttpRequest) : HttpResponse × Service :=
  let path := targetPath request.target
  if cleanTargetPath path != path then (⟨301, none⟩, service)
  else match route? path with
    | some route => service.handleRoute request route
    | none => (⟨404, none⟩, service)

end Service

end Detection

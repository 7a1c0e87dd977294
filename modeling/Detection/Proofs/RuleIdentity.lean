import Detection.Conversion
import Detection.Proofs.PipelineStages
import Detection.Proofs.SigmaDefectFree

/-!
# The identity of a rule

A rule is known by its id and its title. A request may give both, and then every outcome of the
request has to carry them, so that the rules of a batch can be told apart: a converted rule, a rule
that is passed through, and every error. Each reader puts the metadata of the request over what the
rule says about itself, at a point of its own, and reports it with some errors and not with others.

An outcome that is no result and no error of the rule would be lost with its identity. Reading and
rendering give up on a defect, so it is shown as well that they meet none: the values of a query
that was read are settled, every stage of a pipeline has a word, and the mappings of a loaded
registry have signatures.
-/
namespace Detection

open Text

/-- Metadata with the identity of a rule. -/
def Meta.Identifies (own info : Meta) : Prop :=
  own.id = info.id ∧ own.title = info.title

/-- A rule that has both parts of an identity. -/
structure Meta.Named (info : Meta) : Prop where
  id : info.id ≠ ""
  title : info.title ≠ ""

/-- The identity of metadata that is added wins. -/
theorem Meta.Named.merge {info other : Meta} (named : info.Named) (same : other.Identifies info)
    (own : Meta) : (own.merge other).Identifies info := by
  obtain ⟨id, title⟩ := same
  simp [Identifies, Meta.merge, prefer, id, title, named.id, named.title]

/-- What reading a rule may come to: a settled query with the identity of the rule, or an error
that is no defect and has no other identity. -/
inductive Retains (info : Meta) : Except ReadError Query → Prop
  | ok {query : Query} (settled : query.Settled)
      (same : ∃ own ∈ query.info, own.Identifies info) : Retains info (.ok query)
  | error {error : ReadError} (plain : ∀ cause, error.fault ≠ .defect cause)
      (same : ∀ own ∈ error.info, own.Identifies info) : Retains info (.error error)

variable {info : Meta}

/-- A reader that goes on from a step, whose errors are renamed, keeps the identity if both ends of
the step do. -/
theorem Retains.bind {ε α : Type} {step : Except ε α} {rename : ε → ReadError}
    {next : α → Except ReadError Query} (failed : ∀ fault, Retains info (.error (rename fault)))
    (done : ∀ result, step = .ok result → Retains info (next result)) :
    Retains info (step.mapError rename >>= next) := by
  cases step with
  | error fault => exact failed fault
  | ok result => exact done result rfl

/-- Reporting metadata with the errors that have none. -/
theorem Retains.report {outcome : Except ReadError Query} (kept : Retains info outcome) {own : Meta}
    (same : own.Identifies info) :
    Retains info
      (outcome.mapError fun error => { error with info := error.info <|> some own }) := by
  cases kept with
  | ok settled known => exact .ok settled known
  | @error error plain known =>
    refine .error plain ?_
    cases reported : error.info with
    | none => simpa [reported] using same
    | some earlier => simpa [reported] using known earlier reported

/-- Reading the tokens of a text first. An error in the text is reported without metadata. -/
theorem Dialect.read_retains {dialect : Dialect}
    (plain : ∀ entry ∈ dialect.connectives, entry.2.leaf? = none) (text : String)
    {next : List Token → Except ReadError Query}
    (each : ∀ tokens, Token.Settled tokens → Retains info (next tokens)) :
    Retains info (dialect.read text >>= next) := by
  refine Retains.bind (fun fault => .error (by simp) (by simp)) fun tokens read => ?_
  exact each tokens (Dialect.tokenize_settled plain read)

section Readers

variable {repository : Repository} (signed : repository.Signed)
include signed

/-- Making a query of settled tokens. The mappings are there, so that only unbalanced groups are
an error, which is reported with the metadata. -/
theorem Query.ofTokens_retains {tokens : List Token} (settled : Token.Settled tokens)
    (hints : Hints) {own : Meta} (same : own.Identifies info) (pipeline : Pipeline) :
    Retains info (Query.ofTokens repository tokens hints own pipeline) := by
  obtain ⟨resolved, chosen⟩ : ∃ resolved,
      repository.resolve (Token.fieldNames tokens) hints = .ok resolved :=
    ⟨_, signed.resolve_eq _ hints⟩
  have mapped := settled.map (Token.value_withMappings (resolved ++ [repository.default]))
  cases compiled : compile (tokens.map (Token.withMappings (resolved ++ [repository.default]))) with
  | error =>
    simp only [Query.ofTokens, chosen, compiled, Except.mapError, bind, Except.bind]
    exact .error (by simp) (by simpa using same)
  | ok tree =>
    simp only [Query.ofTokens, chosen, compiled, Except.mapError, bind, Except.bind]
    exact .ok ⟨_, mapped, compiled⟩ ⟨_, rfl, same⟩

variable (text : String) {given : Meta} (named : info.Named) (same : given.Identifies info)
include named same

/-- A Splunk search keeps the identity that is given. -/
theorem Spl.read_retains : Retains info (Spl.read repository text (some given)) := by
  obtain ⟨pipeline, read⟩ := Pipeline.exists_ofStages text
  unfold Spl.read
  dsimp only
  rw [read]
  refine Dialect.read_retains (by decide) _ fun tokens settled => ?_
  exact Query.ofTokens_retains signed settled _ (named.merge same _) pipeline

/-- A LogScale query keeps the identity that is given. -/
theorem LogScale.read_retains : Retains info (LogScale.read repository text (some given)) := by
  refine Dialect.read_retains (by decide) _ fun tokens settled => ?_
  exact Query.ofTokens_retains signed settled _ (named.merge same _) _

/-- A LogScale alert keeps the identity that is given, over its own name. -/
theorem LogScale.readAlert_retains :
    Retains info (LogScale.readAlert repository text (some given)) := by
  unfold LogScale.readAlert
  split
  · next alert _ =>
    have own : (Meta.merge? { title := alert.name, description := alert.description }
        (some given)).Identifies info := named.merge same _
    dsimp only
    split
    · exact .error (by simp) (by simpa using own)
    · exact (LogScale.read_retains signed alert.query named own).report own
  · exact .error (by simp) (by simp)

/-- A QRadar search keeps the identity that is given. -/
theorem Aql.read_retains : Retains info (Aql.read repository text (some given)) := by
  refine Dialect.read_retains (by decide) _ fun tokens settled => ?_
  have values := settled.map Aql.value_payloadKeyword
  exact Query.ofTokens_retains signed values _ (named.merge same _) _

/-- A Sigma rule keeps the identity that is given, over its own. -/
theorem Sigma.read_retains : Retains info (Sigma.read repository text (some given)) := by
  refine Retains.bind (fun fault => .error (by simp) (by simp)) fun rule content => ?_
  have own : ((Meta.initial.merge rule.info).merge? (some given)).Identifies info :=
    named.merge same _
  refine Retains.bind (fun fault => .error (by simp) (by simpa using own)) ?_
  rintro ⟨tokens, aggregations⟩ found
  refine Query.ofTokens_retains signed ?_ _ own _
  split at found
  · exact detection_settled found
  · cases found

end Readers

/-- Every reader of a signed registry keeps the identity that is given. -/
theorem Registry.read_retains {registry : Registry} (all : registry.Signed)
    (language : SourceLanguage) (text : String) (named : info.Named) :
    Retains info (registry.read language text (some info)) := by
  have same : info.Identifies info := ⟨rfl, rfl⟩
  cases language with
  | logScale => exact LogScale.read_retains (all _ (by simp)) text named same
  | logScaleAlert => exact LogScale.readAlert_retains (all _ (by simp)) text named same
  | qradar => exact Aql.read_retains (all _ (by simp)) text named same
  | sigma => exact Sigma.read_retains (all _ (by simp)) text named same
  | splunk => exact Spl.read_retains (all _ (by simp)) text named same

/-- No renderer of a signed registry meets a defect in a settled query. -/
theorem Registry.render_defectFree {registry : Registry} (all : registry.Signed)
    (language : TargetLanguage) (strict : Bool) {query : Query} (settled : query.Settled) :
    DefectFree (registry.render language strict query) := by
  cases language with
  | xql => exact QueryForm.render_defectFree Xql.clauses_defectFree settled
  | crowdStrike => exact QueryForm.render_defectFree (Spl.clauses_defectFree _) settled
  | hunters => exact QueryForm.render_defectFree Hunters.clauses_defectFree settled
  | axon => exact QueryForm.render_defectFree Axon.clauses_defectFree settled
  | openSearch => exact QueryForm.render_defectFree Lucene.clauses_defectFree settled
  | openSearchMonitor => exact QueryForm.render_defectFree Lucene.clauses_defectFree settled
  | sigma => exact Sigma.render_defectFree (all _ (by simp)) settled
  | splunk => exact QueryForm.render_defectFree (Spl.clauses_defectFree _) settled

/-- Whether a rule was given up because of a defect. -/
def ConversionFault.isDefect : ConversionFault → Bool
  | read (.defect _) | render (.defect _) => true
  | _ => false

/-- An outcome with the identity of a rule: a converted rule or an error that carries its id and
its title, and no defect. -/
def Carries (info : Meta) : Except RuleError Converted → Prop
  | .ok converted => converted.ruleId = info.id ∧ converted.title = info.title
  | .error error => error.ruleId = info.id ∧ error.title = info.title ∧
      error.fault.isDefect = false

namespace ConversionRequest

variable {request : ConversionRequest} {own : Option Meta}

/-- An error with the identity of the rule. -/
theorem failed_carries {fault : ConversionFault} (plain : fault.isDefect = false)
    (same : ∃ known ∈ own, known.Identifies info) :
    Carries info (.error (request.failed own fault)) := by
  obtain ⟨known, rfl, id, title⟩ := same
  exact ⟨id, title, plain⟩

/-- An outcome with the identity of the rule. -/
theorem succeeded_carries (outputs : List Rendered) (same : ∃ known ∈ own, known.Identifies info) :
    Carries info (.ok (request.succeeded own outputs)) := by
  obtain ⟨known, rfl, id, title⟩ := same
  exact ⟨id, title⟩

/-- Rendering a settled query that has the identity of the rule. -/
theorem render_carries {registry : Registry} (all : registry.Signed) (target : TargetLanguage)
    (strict : Bool) {query : Query} (settled : query.Settled)
    (same : ∃ known ∈ query.info, known.Identifies info) :
    Carries info (do
      let outputs ← (registry.render target strict query).mapError fun error =>
        request.failed query.info (.render error)
      return request.succeeded query.info outputs) := by
  have free := Registry.render_defectFree all target strict settled
  cases rendered : registry.render target strict query with
  | ok outputs => exact succeeded_carries outputs same
  | error error =>
    rw [rendered, DefectFree.error_iff] at free
    refine failed_carries ?_ same
    cases error with
    | defect cause => exact absurd rfl (free cause)
    | construct | regex | strictMapping | document => rfl

/-- An error of reading. Where it is reported without metadata, that of the request counts. -/
theorem read_carries (request : ConversionRequest) {error : ReadError}
    (given : request.info = some info) (kept : Retains info (.error error)) :
    Carries info (.error (request.failed (error.info.or request.info) (.read error.fault))) := by
  cases kept with
  | error plain reported =>
    refine failed_carries ?_ ?_
    · cases fault : error.fault with
      | defect cause => exact absurd fault (plain cause)
      | lex | compile | detection | ruleDocument | alertDocument | alertQuery => rfl
    · cases known : error.info with
      | none => exact ⟨info, given, rfl, rfl⟩
      | some own => exact ⟨own, rfl, reported own known⟩

/-- Converting a rule that has an identity. -/
theorem run_carries {registry : Registry} (all : registry.Signed) (named : info.Named)
    (given : request.info = some info) (strict : Bool) :
    Carries info (request.run registry strict) := by
  have known : ∃ own ∈ request.info, own.Identifies info := ⟨info, given, rfl, rfl⟩
  unfold run
  split
  · exact failed_carries rfl known
  · next source _ =>
    split
    · exact succeeded_carries _ known
    · split
      · exact failed_carries rfl known
      · next target _ =>
        have read := Registry.read_retains all source request.query named
        rw [← given] at read
        cases outcome : registry.read source request.query request.info with
        | ok =>
          rw [outcome] at read
          cases read with
          | ok settled same => exact render_carries all target strict settled same
        | error =>
          rw [outcome] at read
          exact read_carries request given read

/-- Whatever becomes of a rule whose request gives an id and a title, in a registry that was
loaded from a catalogue: the outcome carries them. That holds for a converted rule, for one that is
passed through and for every error, be it a cancelled request, a platform that is not known, or a
fault of reading or of rendering; and neither reading nor rendering gives the rule up on a
defect. -/
theorem runUnless_identity {set : FileSet} {registry : Registry}
    (loaded : Registry.load set = .ok registry) {request : ConversionRequest} {info : Meta}
    (given : request.info = some info) (id : info.id ≠ "") (title : info.title ≠ "")
    (cancelled strict : Bool) :
    match request.runUnless cancelled registry strict with
    | .ok converted => converted.ruleId = info.id ∧ converted.title = info.title
    | .error error => error.ruleId = info.id ∧ error.title = info.title ∧
        error.fault.isDefect = false := by
  have carries : Carries info (request.runUnless cancelled registry strict) := by
    unfold runUnless
    split
    · exact failed_carries rfl ⟨info, given, rfl, rfl⟩
    · exact run_carries (Registry.load_signed loaded) ⟨id, title⟩ given strict
  cases outcome : request.runUnless cancelled registry strict <;> rwa [outcome] at carries

/-- A catalogue with one record, whose other platforms have none. -/
def sampleCatalogue : FileSet where
  files := [("cti/crowdstrike.yml", ""), ("cti/qualys.yml", ""),
    ("splunk/win.yml", "source: win\n")]
  directories := ["splunk", "crowdstrike", "qradar", "logrhythm_axon", "opensearch", "cortex_xql",
    "hunters", "sigma", "logscale"]

/-- The theorem at an alert with a name of its own, whose query cannot be read. -/
theorem runUnless_identity_alert :
    ∃ registry, Registry.load sampleCatalogue = .ok registry ∧
      let info : Meta := { id := "r-1", title := "Logon" }
      let request : ConversionRequest := {
        query := "\x7b\"name\": \"other\", \"query\": \x7b\"queryString\": \"user=\"\x7d\x7d"
        source := "logscale_alert"
        target := "sigma"
        info := some info }
      info.id ≠ "" ∧ info.title ≠ "" ∧
      match request.runUnless false registry true with
      | .ok converted => converted.ruleId = info.id ∧ converted.title = info.title
      | .error error => error.ruleId = info.id ∧ error.title = info.title ∧
          error.fault.isDefect = false := by
  have succeeds : (Registry.load sampleCatalogue).isOk = true := by decide +kernel
  obtain ⟨registry, loaded⟩ : ∃ registry, Registry.load sampleCatalogue = .ok registry := by
    cases outcome : Registry.load sampleCatalogue with
    | ok registry => exact ⟨registry, rfl⟩
    | error failure =>
      rw [outcome] at succeeds
      cases succeeds
  refine ⟨registry, loaded, ?_⟩
  intro info request
  have id : info.id ≠ "" := by decide
  have title : info.title ≠ "" := by decide
  exact ⟨id, title, runUnless_identity loaded rfl id title false true⟩

end ConversionRequest

end Detection

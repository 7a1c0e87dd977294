import Detection.Proofs.NormalForm
import Detection.Proofs.SigmaCoverage
import Detection.Registry

/-!
# Rendering with strict mappings

A query may be rendered such that every field has to be mapped. Then it has an output only if each
mapping that it is rendered for has names on the platform for the fields of all its comparisons,
and in the output each comparison is made under exactly these names: in the text of a condition as
a clause of its own, in a rule as entries of its blocks. If a mapping lacks the names of one field,
there is no output for any mapping.

One platform is left out, on which fields that are not mapped are searched in the raw message.
-/
namespace Detection

open Text

variable {operator : Operator} {value : Value} {query : Query} {outputs : List Rendered}

theorem Tree.Normal.proper {tree : Tree} (normal : tree.Normal) : tree.Proper := by
  rcases normal with rfl | ⟨content, rfl⟩ | ⟨inner, _⟩
  · exact .joined .and [] (by simp)
  · exact .single _ (.leaf content)
  · exact inner.proper

theorem Repository.select_ne_nil (repository : Repository) (ids : List String) :
    repository.select ids ≠ [] := by
  rw [select, orDefault]
  split
  · simp
  · next some => simpa using some

/-! ## Conditions as texts -/

namespace QueryForm

/-- The text of an output around a condition. -/
def around (form : QueryForm) (query : Query) (mapping : SourceMapping) (body : String) : String :=
  let info := query.info.getD .initial
  let functions := (form.functions?.map (· query.pipeline.functions)).getD ""
  let unsupported := query.pipeline.notSupported ++
    (if form.functions?.isSome then [] else query.pipeline.functions.map (·.raw))
  form.envelope (layOut form.layout (form.lead mapping info) body functions) mapping info ++
    annex unsupported form.commentOpening form.commentClosing

variable {form : QueryForm} {mapping : SourceMapping}

/-- A comparison is made under at least one name. -/
theorem Compares.ne_nil {names : List String} {text : String}
    (compares : form.Compares operator value names text) : names ≠ [] := by
  cases compares with
  | one => simp
  | several many =>
    rintro rfl
    simp at many

/-- The fields of the comparisons in a text are mapped. -/
theorem Composes.mapped {leaves : List Leaf} {text : String}
    (composes : form.Composes mapping leaves text) {field : Field} {wildcards : Wildcards}
    (listed : Leaf.comparison field operator value wildcards ∈ leaves) :
    mapping.names field ≠ [] := by
  obtain ⟨fragments, -, rfl, spelt⟩ := composes
  obtain ⟨fragment, inside, own⟩ := List.mem_filterMap.mp listed
  cases spelt fragment inside with
  | glue | word => cases own
  | comparison compared =>
    cases own
    exact compared.ne_nil

/-- Each output is a composed text, one for each mapping. -/
theorem render_composes (strict : form.strict = true) (noRaw : form.rawField = "")
    (proper : query.tree.Proper) (done : form.render query = .ok outputs) :
    List.Forall₂ (fun mapping output => output.mapping = mapping.id ∧
        ∃ body, form.Composes mapping query.tree.leaves body ∧
          output.query = form.around query mapping body)
      (form.repository.select (query.info.getD .initial).mappingIds) outputs := by
  refine (forall₂_of_mapM done).imp fun mapping output rendered => ?_
  rw [renderFor] at rendered
  obtain ⟨body, written, rendered⟩ := exists_of_bind rendered
  cases rendered
  exact ⟨rfl, body, condition_composes strict noRaw proper written, rfl⟩

end QueryForm

/-! ## Conditions as rules -/

namespace Sigma

/-- A block compares under at least one name. -/
theorem Compares.ne_nil {names : List String} {content : BlockContent}
    (compares : Compares operator value names content) : names ≠ [] := by
  cases compares with
  | one => simp
  | several many =>
    rintro rfl
    simp at many

/-- The fields of covered comparisons are mapped. -/
theorem Covers.mapped {mapping : SourceMapping} {leaves : List Leaf} {blocks : List Block}
    (covers : Covers mapping leaves blocks) {field : Field} {wildcards : Wildcards}
    (listed : Leaf.comparison field operator value wildcards ∈ leaves) :
    mapping.names field ≠ [] := by
  obtain ⟨block, _, compares⟩ := covers.each field operator value wildcards listed
  exact compares.ne_nil

/-- The only output is a rule whose blocks cover the query. -/
theorem render_covers {naming : FieldNaming} (strict : naming.strict = true)
    (proper : query.tree.Proper) (done : render naming query = .ok outputs) :
    List.Forall₂ (fun mapping output => output.mapping = mapping.id ∧
        ∃ expression blocks signature root, Covers mapping query.tree.leaves blocks ∧
          document (query.info.getD .initial) signature expression blocks = .ok root ∧
          output.query = withoutFinalBreak (Yaml.print root) ++
            annex query.pipeline.notSupported "#" "")
      ((naming.repository.select (query.info.getD .initial).mappingIds).take 1) outputs := by
  obtain ⟨first, others, chosen⟩ := List.exists_cons_of_ne_nil
    (naming.repository.select_ne_nil (query.info.getD .initial).mappingIds)
  rw [render, chosen, List.headD_cons] at done
  obtain ⟨written, conditionWritten, done⟩ := exists_of_bind done
  rw [chosen, List.take_succ_cons, List.take_zero]
  cases signed : first.signature with
  | none =>
    simp only [signed] at done
    cases done
  | some signature =>
    simp only [signed] at done
    obtain ⟨root, built, done⟩ := exists_of_bind done
    cases done
    exact .cons ⟨rfl, written.1, written.2, signature, root,
      writeCondition_covers strict proper conditionWritten, built, rfl⟩ .nil

end Sigma

/-! ## All platforms -/

namespace Registry

/-- The mappings of the platform of a language. -/
def repository (registry : Registry) : TargetLanguage → Repository
  | .xql => registry.xql
  | .crowdStrike => registry.crowdStrike
  | .hunters => registry.hunters
  | .axon => registry.axon
  | .openSearch | .openSearchMonitor => registry.openSearch
  | .sigma => registry.sigma
  | .splunk => registry.splunk

/-- How a language renders conditions as texts. Rules are written in another way. -/
def form? (registry : Registry) (strict : Bool) : TargetLanguage → Option QueryForm
  | .xql => some (Xql.form registry.xql strict)
  | .crowdStrike => some (Spl.crowdStrikeForm registry.crowdStrike strict)
  | .hunters => some (Hunters.form registry.hunters strict)
  | .axon => some (Axon.form registry.axon)
  | .openSearch => some (Lucene.form registry.openSearch strict)
  | .openSearchMonitor => some (Lucene.monitorForm registry.openSearch strict)
  | .sigma => none
  | .splunk => some (Spl.form registry.splunk strict)

/-- The mappings that a query is rendered for. A rule is for the first one only. -/
def serving (registry : Registry) (language : TargetLanguage) (query : Query) :
    List SourceMapping :=
  let chosen := (registry.repository language).select (query.info.getD .initial).mappingIds
  if language = .sigma then chosen.take 1 else chosen

/-- An output in which each comparison of the query is made under the names that the mapping itself
has for its field. -/
inductive Shows (registry : Registry) (query : Query) (mapping : SourceMapping) :
    TargetLanguage → String → Prop
  | text {language : TargetLanguage} {form : QueryForm} {body : String}
      (written : registry.form? true language = some form)
      (composes : form.Composes mapping query.tree.leaves body) :
      Shows registry query mapping language (form.around query mapping body)
  | rule {expression : String} {blocks : List Sigma.Block} {signature : Signature}
      {root : Yaml.Node} (covers : Sigma.Covers mapping query.tree.leaves blocks)
      (built : Sigma.document (query.info.getD .initial) signature expression blocks = .ok root) :
      Shows registry query mapping .sigma
        (Sigma.withoutFinalBreak (Yaml.print root) ++ annex query.pipeline.notSupported "#" "")

/-- What a strict output is for: its mapping, which has names for the fields of all comparisons. -/
structure StrictFor (registry : Registry) (language : TargetLanguage) (query : Query)
    (mapping : SourceMapping) (output : Rendered) : Prop where
  named : output.mapping = mapping.id
  mapped : ∀ field operator value wildcards,
    Leaf.comparison field operator value wildcards ∈ query.tree.leaves → mapping.names field ≠ []
  shows : registry.Shows query mapping language output.query

/-- The outputs of a strict rendering are for the mappings that the query is rendered for, in their
order. -/
theorem render_strictFor {registry : Registry} {language : TargetLanguage}
    (other : language ≠ .axon) (proper : query.tree.Proper)
    (done : registry.render language true query = .ok outputs) :
    List.Forall₂ (registry.StrictFor language query) (registry.serving language query) outputs := by
  have texts {form : QueryForm} (written : registry.form? true language = some form)
      (strict : form.strict = true) (noRaw : form.rawField = "")
      (done : form.render query = .ok outputs) :
      List.Forall₂ (registry.StrictFor language query)
        (form.repository.select (query.info.getD .initial).mappingIds) outputs := by
    refine (QueryForm.render_composes strict noRaw proper done).imp ?_
    rintro mapping ⟨id, text⟩ ⟨rfl, body, composes, rfl⟩
    exact ⟨rfl, fun _ _ _ _ listed => composes.mapped listed, .text written composes⟩
  cases language with
  | axon => contradiction
  | sigma =>
    refine (Sigma.render_covers rfl proper done).imp ?_
    rintro mapping ⟨id, text⟩ ⟨rfl, expression, blocks, signature, root, covers, built, rfl⟩
    exact ⟨rfl, fun _ _ _ _ listed => covers.mapped listed, .rule covers built⟩
  | xql => exact texts rfl rfl rfl done
  | crowdStrike | hunters | openSearch | openSearchMonitor | splunk => exact texts rfl rfl rfl done

/-- Strict rendering is sound. If there are outputs, there is one for each mapping that the query
is rendered for, the mapping itself has names for the fields of all comparisons, and the
comparisons are made under exactly these names. If a mapping lacks the names of a field, there is
no output at all. -/
theorem render_strict (registry : Registry) (language : TargetLanguage) (other : language ≠ .axon)
    (query : Query) (proper : query.tree.Proper) :
    (∀ outputs, registry.render language true query = .ok outputs →
      List.Forall₂ (registry.StrictFor language query) (registry.serving language query)
        outputs) ∧
    ∀ mapping ∈ registry.serving language query, ∀ field operator value wildcards,
      Leaf.comparison field operator value wildcards ∈ query.tree.leaves →
      mapping.names field = [] →
      ∃ failure, registry.render language true query = .error failure := by
  refine ⟨fun outputs => render_strictFor other proper, ?_⟩
  intro mapping serves field operator value wildcards listed unnamed
  cases rendered : registry.render language true query with
  | error failure => exact ⟨failure, rfl⟩
  | ok outputs =>
    -- Outputs would show that all mappings that serve the query have the names, this one too.
    have mapped := (render_strictFor other proper rendered).imp
      fun mapping output strictFor => And.intro strictFor.mapped strictFor
    obtain ⟨all, -⟩ := (List.forall₂_and_left _ _).mp mapped
    exact absurd unnamed (all mapping serves field operator value wildcards listed)

/-- All platforms with the same mappings. -/
def alike (repository : Repository) : Registry where
  splunk := repository
  crowdStrike := repository
  qradar := repository
  axon := repository
  openSearch := repository
  xql := repository
  hunters := repository
  sigma := repository
  logScale := repository
  indicators := []

end Registry

/-- A mapping with two names for one field, and with one for another. -/
def processMapping : SourceMapping where
  id := "windows"
  signature := some (.set [] "")
  fields := FieldTable.addAll {} [("process", ["Image", "Path"]), ("user", ["User"])]

/-- A query about two fields, which is for this mapping. -/
def processQuery (field : String) : Query where
  tree := .group .and [
    .leaf (.comparison ⟨"Image", [("windows", "process")]⟩ .contains (.text "cmd") {}),
    .group .not [.leaf (.comparison ⟨field, [("windows", field)]⟩ .eq (.text "root") {})]]
  info := some { Meta.initial with mappingIds := ["windows"] }

theorem proper_processQuery (field : String) : (processQuery field).tree.Proper := by
  have compiled : compile [
      .leaf (.comparison ⟨"Image", [("windows", "process")]⟩ .contains (.text "cmd") {}), .and,
      .not, .leaf (.comparison ⟨field, [("windows", field)]⟩ .eq (.text "root") {})] =
      .ok (processQuery field).tree := rfl
  exact (normal_of_compile compiled).proper

/-- A search for the query compares the first field under both of its names. A rule for the query
about a field that the mapping lacks is not written. -/
theorem render_strict_windows :
    (∃ outputs,
      (Registry.alike (.ofRecords "" [processMapping])).render .splunk true (processQuery "user") =
        .ok outputs ∧
      outputs.map (·.query) =
        ["(Image=\"*cmd*\" OR Path=\"*cmd*\") AND NOT User=\"root\""] ∧
      List.Forall₂ ((Registry.alike (.ofRecords "" [processMapping])).StrictFor .splunk
        (processQuery "user")) [processMapping] outputs) ∧
    ∃ failure, (Registry.alike (.ofRecords "" [processMapping])).render .sigma true
      (processQuery "host") = .error failure := by
  constructor
  · obtain ⟨outputs, rendered, texts⟩ : ∃ outputs,
        (Registry.alike (.ofRecords "" [processMapping])).render .splunk true
          (processQuery "user") = .ok outputs ∧
        outputs.map (·.query) =
          ["(Image=\"*cmd*\" OR Path=\"*cmd*\") AND NOT User=\"root\""] :=
      ⟨_, rfl, by decide +kernel⟩
    refine ⟨outputs, rendered, texts, ?_⟩
    exact (Registry.render_strict _ .splunk (by decide) _ (proper_processQuery "user")).1 outputs
      rendered
  · have serves : processMapping ∈ [processMapping] := List.mem_singleton_self _
    exact (Registry.render_strict _ .sigma (by decide) _ (proper_processQuery "host")).2
      processMapping serves ⟨"host", [("windows", "host")]⟩ .eq (.text "root") {}
      (by simp [processQuery]) (by decide +kernel)

end Detection

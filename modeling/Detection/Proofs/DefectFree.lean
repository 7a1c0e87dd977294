import Detection.Language.Axon
import Detection.Language.Hunters
import Detection.Language.Lucene
import Detection.Language.Xql
import Detection.Proofs.SettledTokens

/-!
# Rendering without defects

A renderer gives up on a defect where it meets a value that no reader produces, or a NOT without
an operand. A settled query gives it no occasion: its values are single ones or lists of these,
and its tree has the compiled shape. So rendering a settled query succeeds, or fails for a reason
that the platform or its mappings have.

The clauses of each platform are looked at for single values only; lists, fields with several
names and the raw message are the same for all of them.
-/
namespace Detection

variable {value : Value} {failure : RenderError}

/-- A result that is no defect. -/
def DefectFree {α : Type} (result : Except RenderError α) : Prop :=
  ∀ cause, result ≠ .error (.defect cause)

namespace DefectFree

variable {α β : Type}

@[simp] theorem ok (result : α) : DefectFree (.ok result) := by
  simp [DefectFree]

@[simp] theorem pure (result : α) : DefectFree (pure result) :=
  ok result

/-- Work in two steps. -/
theorem bind {step : Except RenderError α} {next : α → Except RenderError β}
    (first : DefectFree step) (second : ∀ middle, step = .ok middle → DefectFree (next middle)) :
    DefectFree (step >>= next) := by
  cases step with
  | error =>
    intro cause same
    cases same
    exact first cause rfl
  | ok middle => exact second middle rfl

@[simp] theorem error_iff :
    DefectFree (.error failure : Except RenderError α) ↔ ∀ cause, failure ≠ .defect cause := by
  simp [DefectFree]

@[simp] theorem throw_iff :
    DefectFree (throw failure : Except RenderError α) ↔ ∀ cause, failure ≠ .defect cause :=
  error_iff

@[simp] theorem ite_iff {test : Prop} [Decidable test] {first second : Except RenderError α} :
    DefectFree (if test then first else second) ↔
      (test → DefectFree first) ∧ (¬ test → DefectFree second) := by
  split <;> simp [*]

/-- Work that goes on with a result that is there. -/
@[simp] theorem ok_bind {result : α} {next : α → Except RenderError β} :
    DefectFree (.ok result >>= next) ↔ DefectFree (next result) :=
  Iff.rfl

@[simp] theorem throw_bind {next : α → Except RenderError β} :
    DefectFree (throw failure >>= next) ↔ ∀ cause, failure ≠ .defect cause :=
  error_iff

@[simp] theorem map_iff {step : Except RenderError α} {change : α → β} :
    DefectFree (change <$> step) ↔ DefectFree step := by
  cases step with
  | error | ok => simp [Functor.map, Except.map]

/-- Work on each entry of a list. -/
theorem mapM {entries : List α} {step : α → Except RenderError β}
    (each : ∀ entry ∈ entries, DefectFree (step entry)) : DefectFree (entries.mapM step) := by
  induction entries with
  | nil => exact pure []
  | cons entry others ih =>
    rw [List.mapM_cons]
    have rest := ih fun other listed => each other (List.mem_cons_of_mem _ listed)
    exact (each entry List.mem_cons_self).bind fun first _ => by simpa using rest

theorem orDefect {step : Except Defect α} {result : α} (done : step = .ok result) :
    DefectFree (Except.orDefect step) := by
  rw [done]
  exact ok result

end DefectFree

namespace Value

theorem exists_content (single : value.isSingle = true) :
    ∃ text, Except.orDefect value.content = .ok text := by
  cases value with
  | number lexeme => exact ⟨lexeme, by simp [content, plain?, Except.orDefect]⟩
  | text content => exact ⟨content, by simp [Value.content, plain?, Except.orDefect]⟩
  | pattern content => exact ⟨content, by simp [Value.content, plain?, Except.orDefect]⟩
  | list | absent => cases single

/-- A single value has a literal. -/
theorem exists_literal (escaping : Escaping) (kind : LiteralKind) (quote : String)
    (single : value.isSingle = true) :
    ∃ text, Except.orDefect (value.literal escaping kind quote) = .ok text := by
  cases value with
  | number | text | pattern => exact ⟨_, rfl⟩
  | list | absent => cases single

theorem literal_defectFree (single : value.isSingle = true) (escaping : Escaping)
    (kind : LiteralKind) (quote : String) :
    DefectFree (Except.orDefect (value.literal escaping kind quote)) := by
  obtain ⟨text, done⟩ := exists_literal escaping kind quote single
  rw [done]
  exact .ok text

end Value

/-- Comparisons that meet no defect in single values and in lists of them. -/
structure Clauses.DefectFree (clauses : Clauses) : Prop where
  scalar : ∀ field operator value, value.isSingle = true →
    Detection.DefectFree (clauses.scalar field operator value)
  oneOf : ∀ write ∈ clauses.oneOf?, ∀ field values, (∀ value ∈ values, value.isSingle = true) →
    Detection.DefectFree (write field values)

theorem Value.unwrapped_of_isSingle (single : value.isSingle = true) : value.unwrapped = value := by
  cases value with
  | number | text | pattern => rfl
  | list | absent => cases single

theorem Value.unwrapped_isSettled (settled : value.isSettled = true) :
    value.unwrapped.isSettled = true := by
  rcases isSettled_iff.mp settled with single | ⟨items, rfl, each⟩
  · rwa [unwrapped_of_isSingle single]
  · rcases items with _ | ⟨item, _ | ⟨second, others⟩⟩
    · rfl
    · have single : item.isSingle = true := each item List.mem_cons_self
      rw [unwrapped, unwrapped_of_isSingle single]
      exact isSettled_of_isSingle single
    · exact settled

/-- A comparison with a settled value meets no defect. -/
theorem Clauses.DefectFree.comparison {clauses : Clauses} (free : clauses.DefectFree)
    (words : Words) (field : String) (operator : Operator) (settled : value.isSettled = true) :
    Detection.DefectFree (clauses.comparison words field operator value) := by
  have unwrapped := Value.unwrapped_isSettled settled
  unfold Clauses.comparison
  dsimp only
  split
  · next items same =>
    rw [same] at unwrapped
    have single : ∀ item ∈ items, item.isSingle = true := by
      simpa [Value.isSettled] using unwrapped
    have chain : Detection.DefectFree (items.mapM (clauses.scalar field operator)) :=
      .mapM fun item listed => free.scalar field operator item (single item listed)
    split
    · next write listed =>
      split
      · exact free.oneOf write listed field items single
      · simpa using chain
    · simpa using chain
  · next other =>
    rcases Value.isSettled_iff.mp unwrapped with single | ⟨items, same, _⟩
    · exact free.scalar field operator _ single
    · exact absurd same (other items)

theorem Spl.quoted_defectFree (single : value.isSingle = true) (lead trail : String) :
    DefectFree (quoted lead value trail) := by
  unfold quoted
  split
  · split <;> simp
  · obtain ⟨text, content⟩ := Value.exists_content single
    simp [content]

theorem Spl.clauses_defectFree (platform : String) : (clauses platform).DefectFree where
  scalar field operator value single := by
    have quoted := quoted_defectFree single
    change DefectFree (scalar platform field operator value)
    unfold scalar
    split
    · cases operator <;> simp [keyword, quoted]
    · cases operator <;> simp [quoted]
  oneOf := by
    rintro _ ⟨⟩ field values single
    have parts : DefectFree (values.mapM (quoted "" · "")) :=
      .mapM fun value listed => quoted_defectFree (single value listed) "" ""
    simpa [oneOf] using parts

/-- Comparing a field with a single value meets no defect. -/
theorem Axon.fieldScalar_defectFree (field : String) (operator : Operator)
    (single : value.isSingle = true) : DefectFree (fieldScalar field operator value) := by
  obtain ⟨text, content⟩ := Value.exists_content single
  cases operator <;> simp [fieldScalar, ordered, containing, content]

theorem Axon.scalar_defectFree (field : String) (operator : Operator)
    (single : value.isSingle = true) : DefectFree (scalar field operator value) := by
  rw [scalar]
  split <;> exact fieldScalar_defectFree _ _ single

theorem Axon.clauses_defectFree : clauses.DefectFree where
  scalar field operator value single := scalar_defectFree field operator single
  oneOf := by
    rintro _ ⟨⟩ field values single
    have strict : DefectFree (strictOneOf field values) := by
      unfold strictOneOf
      refine DefectFree.bind (.mapM fun value listed => ?_) fun parts _ => .pure _
      obtain ⟨text, content⟩ := Value.exists_content (single value listed)
      simp [content]
    have chain : DefectFree (values.mapM (scalar field .eq)) :=
      .mapM fun value listed => scalar_defectFree field .eq (single value listed)
    unfold oneOf
    split
    · exact .ok _
    · next cause same => exact absurd same (strict cause)
    · simpa using chain

theorem Xql.literal_defectFree (single : value.isSingle = true) : DefectFree (literal value) :=
  Value.literal_defectFree single _ _ _

/-- Comparing a field with a single value meets no defect. -/
theorem Xql.fieldScalar_defectFree (field : String) (operator : Operator)
    (single : value.isSingle = true) : DefectFree (fieldScalar field operator value) := by
  obtain ⟨text, content⟩ := Value.exists_content single
  have literal := literal_defectFree single
  cases operator <;>
    simp [fieldScalar, compared, containing, matching, body, regex, content, literal]

theorem Xql.scalar_defectFree (field : String) (operator : Operator)
    (single : value.isSingle = true) : DefectFree (scalar field operator value) := by
  rw [scalar]
  split <;> exact fieldScalar_defectFree _ _ single

theorem Xql.clauses_defectFree : clauses.DefectFree where
  scalar field operator value single := scalar_defectFree field operator single
  oneOf := by
    rintro _ ⟨⟩ field values single
    have literals : DefectFree (values.mapM literal) :=
      .mapM fun value listed => literal_defectFree (single value listed)
    have chain : DefectFree (values.mapM (scalar field .eq)) :=
      .mapM fun value listed => scalar_defectFree field .eq (single value listed)
    exact literals.bind fun parts _ => by simp [chain]

/-- A comparison with a single value meets no defect. -/
theorem Hunters.scalar_defectFree (field : String) (operator : Operator)
    (single : value.isSingle = true) : DefectFree (scalar field operator value) := by
  obtain ⟨text, content⟩ := Value.exists_content single
  have literal : DefectFree (literal value) := Value.literal_defectFree single _ _ _
  unfold scalar
  split
  · simp
  · cases operator <;> simp [like, likePattern, compared, regex, content, literal]

/-- The literals of a list of single values meet no defect. -/
theorem Hunters.literals_defectFree {values : List Value}
    (single : ∀ value ∈ values, value.isSingle = true) : DefectFree (literals values) := by
  induction values with
  | nil => exact .ok _
  | cons value others ih =>
    have own : DefectFree (literal value) :=
      Value.literal_defectFree (single value List.mem_cons_self) _ _ _
    have rest :=
      ih fun other listed => single other (List.mem_cons_of_mem _ listed)
    rw [literals, DefectFree.ite_iff]
    exact ⟨fun _ => .pure _, fun _ => own.bind fun first _ => by simpa using rest⟩

theorem Hunters.clauses_defectFree : clauses.DefectFree where
  scalar field operator value single := scalar_defectFree field operator single
  oneOf := by
    rintro _ ⟨⟩ field values single
    have chain : DefectFree (values.mapM (scalar field .eq)) :=
      .mapM fun value listed => scalar_defectFree field .eq (single value listed)
    refine (literals_defectFree single).bind fun parts _ => ?_
    cases parts with
    | none => simpa using chain
    | some => exact .pure _

theorem Lucene.quoted_defectFree (single : value.isSingle = true) : DefectFree (quoted value) := by
  unfold quoted
  split
  · exact .ok _
  · obtain ⟨text, content⟩ := Value.exists_content single
    simp [content]

theorem Lucene.plain_defectFree (single : value.isSingle = true) : DefectFree (plain value) := by
  obtain ⟨text, content⟩ := Value.exists_content single
  simp [plain, bare, content, quoted_defectFree single]

theorem Lucene.clauses_defectFree : clauses.DefectFree where
  scalar field operator value single := by
    obtain ⟨text, content⟩ := Value.exists_content single
    have quoted := quoted_defectFree single
    have plain := plain_defectFree single
    change DefectFree (scalar field operator value)
    cases operator <;> simp [scalar, bare, regex, content, quoted, plain]
  oneOf := by
    rintro _ ⟨⟩ field values single
    have parts : DefectFree (values.mapM plain) :=
      .mapM fun value listed => plain_defectFree (single value listed)
    simpa [oneOf] using parts

/-- A field that has to be mapped and is not is no defect. -/
theorem FieldNaming.names_defectFree (naming : FieldNaming) (mapping : SourceMapping)
    (field : Field) : DefectFree (naming.names mapping field) := by
  simp [FieldNaming.names]

namespace QueryForm

/-- A single value of a regular expression becomes a single one with wildcards. -/
theorem exists_asPattern_single (single : value.isSingle = true) :
    ∃ pattern, asPattern value = .ok pattern ∧ pattern.isSingle = true := by
  cases value with
  | number lexeme => exact ⟨.number lexeme, by simp [asPattern], rfl⟩
  | text content =>
    exact ⟨.pattern content true, by simp [asPattern, Value.content, Value.plain?], rfl⟩
  | pattern content =>
    exact ⟨.pattern content true, by simp [asPattern, Value.content, Value.plain?], rfl⟩
  | list | absent => cases single

theorem exists_asPatterns {items : List Value} (single : ∀ item ∈ items, item.isSingle = true) :
    ∃ patterns, asPatterns items = .ok patterns ∧
      ∀ pattern ∈ patterns, pattern.isSingle = true := by
  induction items with
  | nil => exact ⟨[], by simp [asPatterns], by simp⟩
  | cons item others ih =>
    obtain ⟨first, made, own⟩ := exists_asPattern_single (single item List.mem_cons_self)
    obtain ⟨rest, othersMade, each⟩ :=
      ih fun other listed => single other (List.mem_cons_of_mem _ listed)
    refine ⟨first :: rest, ?_, List.forall_mem_cons.mpr ⟨own, each⟩⟩
    rw [asPatterns, made, othersMade]
    rfl

/-- A settled value of a regular expression becomes a settled one with wildcards. -/
theorem exists_asPattern (settled : value.isSettled = true) :
    ∃ pattern, asPattern value = .ok pattern ∧ pattern.isSettled = true := by
  rcases Value.isSettled_iff.mp settled with single | ⟨items, rfl, single⟩
  · obtain ⟨pattern, made, own⟩ := exists_asPattern_single single
    exact ⟨pattern, made, Value.isSettled_of_isSingle own⟩
  · obtain ⟨patterns, made, each⟩ := exists_asPatterns single
    refine ⟨.list patterns, ?_, Value.isSettled_iff.mpr (.inr ⟨patterns, rfl, each⟩)⟩
    rw [asPattern, made]
    rfl

/-- The members of a group meet no defect if none of them does. -/
theorem conditions_defectFree {form : QueryForm} {mapping : SourceMapping} (kind : GroupKind)
    {members : List Tree}
    (each : ∀ member ∈ members, DefectFree (form.condition mapping member)) :
    DefectFree (form.conditions mapping kind members) := by
  induction members with
  | nil => simp [conditions]
  | cons member others ih =>
    have rest := ih fun other listed => each other (List.mem_cons_of_mem _ listed)
    rw [conditions]
    refine (each member List.mem_cons_self).bind fun text _ => rest.bind fun parts _ => ?_
    simp

/-- A search in the raw message reports its failures under the field that is not mapped, which
makes no defect of them. -/
theorem reported_defectFree (platform name id : String) {searched : Except RenderError String}
    (free : DefectFree searched) :
    DefectFree (match searched with
      | .ok text => pure text
      | .error (.regex _ _ text _) => throw (.regex platform name text true)
      | .error (.defect defect) => throw (.defect defect)
      | .error failure => throw (.strictMapping platform name id (some failure.message))) := by
  split
  · simp
  · simp
  · next cause => exact absurd rfl (free cause)
  · simp

variable {form : QueryForm} (free : form.clauses.DefectFree)
include free

/-- Searching a settled value in the raw message meets no defect. -/
theorem rawClause_defectFree (mapping : SourceMapping) (field : Field) (operator : Operator)
    (settled : value.isSettled = true) :
    DefectFree (form.rawClause mapping field operator value) := by
  have compared {pattern : Value} (own : pattern.isSettled = true) :=
    free.comparison form.words form.rawField
      (if operator.negated then .notContains else .contains) own
  unfold rawClause
  dsimp only
  split
  · obtain ⟨pattern, made, own⟩ := exists_asPattern settled
    rw [made]
    exact reported_defectFree _ _ _ (compared own)
  · exact reported_defectFree _ _ _ (compared settled)

/-- A leaf with a settled value meets no defect. -/
theorem leaf_defectFree (mapping : SourceMapping) {leaf : Leaf}
    (settled : leaf.value.isSettled = true) : DefectFree (form.leaf mapping leaf) := by
  cases leaf with
  | keyword operator => exact free.comparison form.words "" operator settled
  | comparison field operator value =>
    have named := form.names_defectFree mapping field
    rw [QueryForm.leaf]
    split
    · next failure unnamed =>
      rw [unnamed, DefectFree.error_iff] at named
      split
      · exact DefectFree.error_iff.mpr named
      · exact rawClause_defectFree free mapping field operator settled
    · exact free.comparison form.words _ operator settled
    · next names _ _ =>
      have parts : DefectFree
          (names.mapM fun name => form.clauses.comparison form.words name operator value) :=
        .mapM fun name _ => free.comparison form.words name operator settled
      simpa using parts

/-- A tree of the compiled shape with settled values meets no defect. -/
theorem condition_defectFree (mapping : SourceMapping) {tree : Tree} (inner : tree.Inner)
    (settled : ∀ leaf ∈ tree.leaves, leaf.value.isSettled = true) :
    DefectFree (form.condition mapping tree) := by
  induction inner with
  | leaf content =>
    rw [condition]
    exact leaf_defectFree free mapping (settled content (by simp))
  | negation member inner ih =>
    rw [condition]
    simpa using ih (by simpa using settled)
  | joined connective members several each ih =>
    have parts := conditions_defectFree connective.kind fun member belongs =>
      ih member belongs fun leaf own => settled leaf <| by
        rw [Tree.leaves_group]
        exact List.mem_flatMap.mpr ⟨member, belongs, own⟩
    rw [condition_joined]
    simpa using parts

theorem render_defectFree {query : Query} (settled : query.Settled) :
    DefectFree (form.render query) := by
  refine .mapM fun mapping _ => ?_
  have body : DefectFree (form.condition mapping query.tree) := by
    rcases settled.scope with nothing | ⟨inner, tree, shape, values⟩
    · simp [nothing, Tree.ofScope, condition, conditions]
    · rw [tree, condition_ofScope]
      exact condition_defectFree free mapping shape values
  exact body.bind fun text _ => .pure _

end QueryForm

end Detection

import Detection.Language.Lucene
import Detection.Proofs.ClauseEnds
import Detection.Proofs.Compilation
import Detection.Proofs.Escaping
import Detection.Proofs.Infix

/-!
# Conditions on the platforms

A group leaves out members without any text, so a condition says what its tree says
only if every clause is a text. On all platforms the clause of a leaf has at least a
quote, a word or the name of a field in it, with two exceptions: a number is written
as it is, and a value with wildcards is written without quotes in the query language
of Lucene. A number has digits. A value with wildcards may be empty, and then a search
for it in all fields writes nothing.
-/
namespace Detection

open Text

/-- The platforms that render conditions as one text. -/
inductive Platform
  | splunk
  | crowdStrike
  | axon
  | openSearch
  | xql
  | hunters
  deriving DecidableEq, Repr

/-- How a platform renders queries. Axon requires mapped fields in any case. -/
def Platform.form (repository : Repository) (strict : Bool) : Platform → QueryForm
  | splunk => Spl.form repository strict
  | crowdStrike => Spl.crowdStrikeForm repository strict
  | axon => Axon.form repository
  | openSearch => Lucene.form repository strict
  | xql => Xql.form repository strict
  | hunters => Hunters.form repository strict

/-- On all platforms but OpenSearch the clauses of leaves have any property of ends that numbers
have. -/
theorem Platform.leaf_yields {shown : String → Prop} (ofEnd : OfEnd shown) (platform : Platform)
    (other : platform ≠ .openSearch) (repository : Repository) (strict : Bool)
    (mapping : SourceMapping) (leaf : Leaf) (number : leaf.value.unwrapped.NumberShown shown) :
    Yields shown ((platform.form repository strict).leaf mapping leaf) := by
  cases platform with
  | splunk | crowdStrike =>
    exact QueryForm.leaf_yields ofEnd (Spl.shows ofEnd _) (.inl rfl) mapping leaf number
  | axon =>
    exact QueryForm.leaf_yields ofEnd (Axon.shows ofEnd) (.inr (Axon.raw_yields ofEnd)) mapping
      leaf number
  | openSearch => contradiction
  | xql => exact QueryForm.leaf_yields ofEnd (Xql.shows ofEnd) (.inl rfl) mapping leaf number
  | hunters =>
    exact QueryForm.leaf_yields ofEnd (Hunters.shows ofEnd) (.inl rfl) mapping leaf number

theorem Value.numberShown_ne_empty {value : Value} (digits : value ≠ .number "") :
    value.NumberShown (· ≠ "") := by
  rintro lexeme same rfl
  exact digits same

/-- The value of an equality in Lucene is a text for every single value but a number
without digits and the empty text with wildcards. -/
theorem Lucene.plain_yields {value : Value} (digits : value ≠ .number "")
    (stars : value ≠ .pattern "" true) : Yields (· ≠ "") (Lucene.plain value) := by
  have wrapped (step : Except RenderError String) (body : String → String) :
      Yields (· ≠ "") (do return "\"" ++ body (← step) ++ "\"") :=
    .bind fun text => .pure (OfEnd.ne_empty.closed _ (by decide))
  cases value with
  | number lexeme => exact .pure (Value.numberShown_ne_empty digits lexeme rfl)
  | text => exact wrapped _ _
  | pattern content special =>
    cases special with
    | false => exact wrapped _ _
    | true =>
      have some : content ≠ "" := by
        rintro rfl
        exact stars rfl
      exact .pure (Escaping.overStars_ne_empty rfl (by decide) some)
  | list | absent => exact wrapped _ _

/-- OpenSearch writes a text for every single value but those two. -/
theorem Lucene.shows_ne_empty : Lucene.clauses.Show (· ≠ "") fun value =>
    value ≠ .number "" ∧ value ≠ .pattern "" true := by
  constructor
  · rintro field operator value ⟨digits, stars⟩
    change Yields (· ≠ "") (Lucene.scalar field operator value)
    have plain : Yields (· ≠ "") (Lucene.plain value) := Lucene.plain_yields digits stars
    have regex : Yields (· ≠ "") (Lucene.regex value) :=
      .bind fun text => .pure (OfEnd.ne_empty.closed _ (by decide))
    cases operator with
    | eq | keyword => exact OfEnd.ne_empty.yields_behind _ plain
    | regex => exact OfEnd.ne_empty.yields_behind _ regex
    | neq | lt | lte | gt | gte | contains | notContains | startsWith | endsWith | notRegex =>
      exact .bind fun text => .pure (by simp [String.append_eq_empty_iff])
    | isNone | isNotNone =>
      simp only [Lucene.scalar]
      split
      · exact .error _
      · exact .pure (by simp [String.append_eq_empty_iff])
    | other code => exact .error _
  · intro oneOf known field values
    obtain rfl : Lucene.oneOf = oneOf := Option.some.inj known
    exact .bind fun parts => .pure (OfEnd.ne_empty.closed _ (by decide))

/-- The clause of a leaf is a text on every platform, if the value is neither a number
without digits nor, in Lucene, the empty text with wildcards. -/
theorem Platform.leaf_ne_empty (platform : Platform) (repository : Repository) (strict : Bool)
    (mapping : SourceMapping) (leaf : Leaf) (digits : leaf.value.unwrapped ≠ .number "")
    (stars : platform = .openSearch → leaf.value.unwrapped ≠ .pattern "" true) :
    (platform.form repository strict).leaf mapping leaf ≠ .ok "" := by
  suffices shown : Yields (· ≠ "") ((platform.form repository strict).leaf mapping leaf) from
    fun empty => shown "" empty rfl
  by_cases lucene : platform = .openSearch
  · subst lucene
    exact QueryForm.leaf_yields OfEnd.ne_empty Lucene.shows_ne_empty (.inl rfl) mapping leaf
      ⟨digits, stars rfl⟩
  · exact platform.leaf_yields OfEnd.ne_empty lucene repository strict mapping leaf
      (Value.numberShown_ne_empty digits)

/-- The condition that a platform writes for a compiled query with leaves has the value
of its tree. Excluded are numbers without digits and, in Lucene, values with wildcards
and nothing else in them. -/
theorem Platform.condition_infix (platform : Platform) (repository : Repository) (strict : Bool)
    (mapping : SourceMapping) (tokens : List Token) (tree : Tree)
    (compiled : compile tokens = .ok tree) (leafy : tree.leaves ≠ [])
    (digits : ∀ leaf ∈ tree.leaves, leaf.value.unwrapped ≠ .number "")
    (stars : platform = .openSearch →
      ∀ leaf ∈ tree.leaves, leaf.value.unwrapped ≠ .pattern "" true)
    (text : String)
    (rendered : (platform.form repository strict).condition mapping tree = .ok text) :
    ∃ condition : Infix, (platform.form repository strict).Writes mapping tree text condition := by
  obtain ⟨scope, rfl, ⟨rfl, _⟩ | ⟨inner, rfl, shape, _⟩⟩ := compile_scope compiled
  · exact absurd rfl leafy
  · have leaves : (Tree.ofScope (some inner)).leaves = inner.leaves := Tree.leaves_ofScope _
    have clauses : ∀ leaf ∈ inner.leaves,
        (platform.form repository strict).leaf mapping leaf ≠ .ok "" := by
      intro leaf belongs
      rw [← leaves] at belongs
      exact platform.leaf_ne_empty repository strict mapping leaf (digits leaf belongs)
        fun lucene => stars lucene leaf belongs
    rw [QueryForm.condition_ofScope] at rendered
    obtain ⟨_, condition, writes, _⟩ := QueryForm.written_of_inner shape clauses text rendered
    refine ⟨condition, writes.text, writes.leaves.trans leaves.symm, leaves ▸ writes.clauses, ?_⟩
    intro truth
    rw [writes.value truth, Tree.value_ofScope]
    rfl

/-- The theorem on OpenSearch at `a = "b" AND (w OR NOT c > 5)`, where a group of the
other kind gets parentheses and one of its members a NOT. -/
theorem Platform.condition_infix_nested :
    let field (name : String) (operator : Operator) (value : Value) : Leaf :=
      .comparison { name } operator value {}
    let tree : Tree := .group .and [.leaf (field "a" .eq (.text "b")),
      .group .or [.leaf (.keyword .keyword (.pattern "w*" true) {}),
        .group .not [.leaf (field "c" .gt (.number "5"))]]]
    let form := Platform.openSearch.form (.ofRecords "opensearch" []) false
    form.condition form.repository.default tree = .ok "a:\"b\" AND (w* OR NOT c:>5)" ∧
    ∃ condition : Infix, form.Writes form.repository.default tree
      "a:\"b\" AND (w* OR NOT c:>5)" condition := by
  intro field tree form
  have values : ∀ leaf ∈ tree.leaves,
      leaf.value.unwrapped ≠ .number "" ∧ leaf.value.unwrapped ≠ .pattern "" true := by
    simp [tree, field, Leaf.value, Value.unwrapped]
  exact ⟨rfl, Platform.openSearch.condition_infix (.ofRecords "opensearch" []) false _
    [.leaf (field "a" .eq (.text "b")), .and, .opening,
      .leaf (.keyword .keyword (.pattern "w*" true) {}), .or, .not,
      .leaf (field "c" .gt (.number "5")), .closing] tree rfl (by simp [tree])
    (fun leaf belongs => (values leaf belongs).1)
    (fun _ leaf belongs => (values leaf belongs).2) _ rfl⟩

/-- A text without blanks and parentheses can only be a single clause. -/
theorem Infix.eq_clause_of_text {condition : Infix} {wording : Wording} {text : String}
    (written : condition.text wording = text) (blanks : ' ' ∉ text.toList)
    (parentheses : '(' ∉ text.toList) :
    ∃ leaf, wording.clause leaf = text ∧ ∀ truth, condition.value truth = truth leaf := by
  obtain ⟨connective, first, others⟩ := condition
  cases others with
  | cons =>
    refine absurd ?_ blanks
    simp [← written, Infix.text, Infix.operands, join]
  | nil =>
    cases first with
    | clause leaf => exact ⟨leaf, written, fun truth => by simp [Infix.value, Infix.operands,
        Operand.value]⟩
    | negated =>
      refine absurd ?_ blanks
      simp [← written, Infix.text, Infix.operands, join, Operand.text]
    | enclosed =>
      refine absurd ?_ parentheses
      simp [← written, Infix.text, Infix.operands, join, Operand.text]

/-- The exception in Lucene is needed: beside a search for the empty text with
wildcards, which writes nothing, a comparison is all that is written of an AND, and no
condition with that text has the value of the tree. -/
theorem Lucene.condition_drops_empty_wildcard :
    let word : Leaf := .keyword .keyword (.pattern "" true) {}
    let comparison : Leaf := .comparison { name := "a" } .eq (.text "b") {}
    let tree : Tree := .group .and [.leaf word, .leaf comparison]
    let form := Platform.openSearch.form (.ofRecords "opensearch" []) false
    let clause := form.clause form.repository.default
    compile [.leaf word, .and, .leaf comparison] = .ok tree ∧
    (∀ leaf ∈ tree.leaves, leaf.value.unwrapped ≠ .number "") ∧
    form.condition form.repository.default tree = .ok "a:\"b\"" ∧
    ¬ ∃ condition : Infix, condition.text (form.wording form.repository.default) = "a:\"b\"" ∧
      ∀ truth : String → Bool, condition.value (fun leaf => truth (clause leaf)) =
        tree.value (fun leaf => truth (clause leaf)) := by
  refine ⟨rfl, by simp [Leaf.value, Value.unwrapped], rfl, ?_⟩
  rintro ⟨condition, written, same⟩
  obtain ⟨leaf, clause, value⟩ :=
    Infix.eq_clause_of_text written (by decide) (by decide)
  have differs := same (· != "")
  rw [value] at differs
  simp only [QueryForm.wording] at clause
  rw [clause] at differs
  exact absurd differs (by decide)

end Detection

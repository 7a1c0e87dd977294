import Detection.Proofs.Compilation
import Detection.Proofs.Outcomes
import Detection.Source

/-!
# Queries that are one comparison

A query whose only token is a comparison is served by every repository, as long as it has no
hints: its tree is the comparison in a group of its own, and its field is known by the same
name under all mappings. What the leaves of a query compare does not depend on the mappings
either.
-/
namespace Detection

open Text

/-- The query is one comparison of a field with a value, and there is no pipeline behind it. -/
def Query.IsComparison (query : Query) (name : String) (operator : Operator) (value : Value) :
    Prop :=
  query.pipeline = {} ∧ ∃ field : Field, field.name = name ∧
    query.tree = .group .single [.leaf (.comparison field operator value {})]

/-- A query is a comparison with one value only. -/
theorem Query.IsComparison.value_unique {query : Query} {name other : String}
    {operator another : Operator} {value content : Value}
    (comparison : query.IsComparison name operator value)
    (also : query.IsComparison other another content) : value = content := by
  obtain ⟨_, field, _, tree⟩ := comparison
  obtain ⟨_, known, _, same⟩ := also
  rw [tree] at same
  injection same with _ children
  injection children with child _
  injection child with leaf
  injection leaf

/-- Mappings give generic names to a field and leave its own. -/
theorem Field.name_withMappings (field : Field) (mappings : List SourceMapping) :
    (field.withMappings mappings).name = field.name := by
  rw [Field.withMappings]
  induction mappings generalizing field with
  | nil => rfl
  | cons mapping others ih =>
    rw [List.foldl_cons, ih]
    split <;> rfl

/-- The mappings of a token do not change what it compares. -/
theorem Token.fieldName_withMappings (mappings : List SourceMapping) (token : Token) :
    (token.withMappings mappings).leaf?.bind Leaf.fieldName? =
      token.leaf?.bind Leaf.fieldName? := by
  cases token with
  | leaf content =>
    cases content with
    | comparison field =>
      exact congrArg some (field.name_withMappings mappings)
    | keyword => rfl
  | and | or | not | opening | closing | stray => rfl

namespace Repository

/-- Without hints the choice of mappings cannot fail. -/
theorem resolve_nil (repository : Repository) (required : List String) :
    ∃ resolved, repository.resolve required [] = .ok resolved := by
  have chosen : repository.resolve required [] =
      (repository.mappings.filterM fun mapping => .ok (mapping.fields.knowsAll required)) >>=
        fun suitable => .ok (repository.orDefault suitable) := rfl
  rw [chosen, filterM_eq fun _ _ => rfl]
  exact ⟨_, rfl⟩

end Repository

namespace Query

/-- What a query is made of, if it is made. -/
theorem ofTokens_ok {repository : Repository} {tokens : List Token} {hints : Hints} {info : Meta}
    {pipeline : Pipeline} {query : Query}
    (made : ofTokens repository tokens hints info pipeline = .ok query) :
    ∃ resolved, repository.resolve (Token.fieldNames tokens) hints = .ok resolved ∧
      query.tokens = tokens.map (Token.withMappings (resolved ++ [repository.default])) ∧
      compile query.tokens = .ok query.tree ∧
      query.info = some { info with
        queryFields := Token.fieldNames tokens
        mappingIds := resolved.map (·.id)
        logSources := if hints.isEmpty then info.logSources else hints } ∧
      query.pipeline = pipeline := by
  rw [ofTokens] at made
  obtain ⟨resolved, chosen, made⟩ := exists_of_bind made
  obtain ⟨tree, compiled, made⟩ := exists_of_bind made
  cases made
  exact ⟨resolved, mapError_ok chosen, rfl, mapError_ok compiled, rfl, rfl⟩

/-- A query of one comparison without hints. -/
theorem ofTokens_comparison (repository : Repository) (field : Field) (operator : Operator)
    (value : Value) (info : Meta) (pipeline : Pipeline) :
    ∃ query, ofTokens repository [.leaf (.comparison field operator value {})] [] info pipeline =
        .ok query ∧ query.pipeline = pipeline ∧ ∃ known : Field, known.name = field.name ∧
        query.tree = .group .single [.leaf (.comparison known operator value {})] := by
  obtain ⟨resolved, chosen⟩ := repository.resolve_nil
    (Token.fieldNames [.leaf (.comparison field operator value {})])
  rw [ofTokens, chosen]
  exact ⟨_, rfl, rfl, _, field.name_withMappings (resolved ++ [repository.default]), rfl⟩

/-- A query that is a comparison was made of tokens with a comparison. -/
theorem IsComparison.exists_token {repository : Repository} {tokens : List Token} {hints : Hints}
    {info : Meta} {pipeline : Pipeline} {query : Query}
    (made : ofTokens repository tokens hints info pipeline = .ok query) {name : String}
    {operator : Operator} {value : Value} (comparison : query.IsComparison name operator value) :
    ∃ token ∈ tokens, token.leaf?.bind Leaf.fieldName? = some name := by
  obtain ⟨resolved, _, mapped, compiled, _⟩ := ofTokens_ok made
  obtain ⟨_, field, rfl, tree⟩ := comparison
  have leaves := leaves_of_compile compiled
  rw [tree] at leaves
  have member : Leaf.comparison field operator value {} ∈ query.tokens.filterMap Token.leaf? := by
    rw [← leaves]
    simp [Tree.leaves, Tree.leavesAll]
  obtain ⟨known, listed, isLeaf⟩ := List.mem_filterMap.mp member
  obtain ⟨token, own, rfl⟩ := List.mem_map.mp (mapped ▸ listed)
  refine ⟨token, own, ?_⟩
  rw [← Token.fieldName_withMappings (resolved ++ [repository.default]), isLeaf]
  rfl

end Query

end Detection

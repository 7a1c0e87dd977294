import Detection.Language.Sigma.Rule
import Detection.Proofs.ConditionTokens
import Detection.Proofs.Recognisers
import Detection.Proofs.SigmaAcceptance

/-!
# The values that readers produce

The common model has values that no query can write: a missing value, and a list in a list. A
renderer that meets one gives up. This module shows that no reader produces them. Every value that
is read is settled: it is a number, a text, a pattern, or a list of these.

The lexer makes literals of single values only and collects them in one list at most; taking
wildcards off keeps them single. A Sigma rule takes its values from scalars, and its conditions
only rearrange the tokens of its selections.
-/
namespace Detection

open Text Lexer Token

variable {tokens : List Token} {value : Value} {node : Yaml.Node}

namespace Value

/-- Whether a value is a number, a text or a pattern. -/
def isSingle : Value → Bool
  | number _ | text _ | pattern .. => true
  | list _ | absent => false

/-- Whether a value is a single one or a list of single ones. -/
def isSettled : Value → Bool
  | list items => items.all isSingle
  | value => value.isSingle

/-- A settled value, taken apart. -/
theorem isSettled_iff : value.isSettled = true ↔
    value.isSingle = true ∨ ∃ items, value = list items ∧ ∀ item ∈ items, item.isSingle = true := by
  cases value <;> simp [isSettled, isSingle]

theorem isSettled_of_isSingle (single : value.isSingle = true) : value.isSettled = true :=
  isSettled_iff.mpr (.inl single)

end Value

/-- Tokens whose leaves are about settled values. -/
def Token.Settled (tokens : List Token) : Prop :=
  ∀ token ∈ tokens, ∀ leaf ∈ token.leaf?, leaf.value.isSettled = true

namespace Token.Settled

variable {others : List Token}

@[simp] theorem nil : Settled [] := by
  simp [Settled]

@[simp] theorem cons_iff {token : Token} :
    Settled (token :: tokens) ↔
      (∀ leaf ∈ token.leaf?, leaf.value.isSettled = true) ∧ Settled tokens := by
  simp [Settled]

@[simp] theorem append_iff : Settled (tokens ++ others) ↔ Settled tokens ∧ Settled others := by
  simp [Settled, or_imp, forall_and]

/-- Tokens stay settled when they are changed in such a way that their leaves keep their values. -/
theorem map {change : Token → Token}
    (keeps : ∀ token, (change token).leaf?.map Leaf.value = token.leaf?.map Leaf.value)
    (settled : Settled tokens) : Settled (tokens.map change) := by
  intro changed listed leaf own
  obtain ⟨token, member, rfl⟩ := List.mem_map.mp listed
  have same := keeps token
  rw [Option.mem_def.mp own, Option.map_some, eq_comm, Option.map_eq_some_iff] at same
  obtain ⟨before, isLeaf, value⟩ := same
  exact value ▸ settled token member before isLeaf

end Token.Settled

theorem patternValue_isSingle (wildcard text : List Char) :
    (patternValue wildcard text).isSingle = true := by
  rw [patternValue]
  split <;> rfl

/-- Taking wildcards off leaves a single value. -/
theorem promoteWildcards_isSingle (operator : Operator) (text wildcard : List Char) :
    (promoteWildcards operator text wildcard).value.isSingle = true := by
  unfold promoteWildcards
  split
  · exact patternValue_isSingle wildcard text
  · split
    · rfl
    · dsimp only
      split <;> exact patternValue_isSingle _ _

theorem Value.ofNumeral_isSingle {text : String} (read : Value.ofNumeral text = .ok value) :
    value.isSingle = true := by
  rw [ofNumeral] at read
  split at read
  · cases read
    rfl
  · cases read

namespace Dialect

variable {dialect : Dialect} {inList : Bool} {text rest : List Char}

theorem bareWord_passes {word : List Char}
    (found : dialect.bareWord? inList text = some (word, rest)) : Passes text rest := by
  rw [bareWord?] at found
  split at found
  · dsimp only [spanOf] at found
    split at found <;> cases found
    next some => exact .span fun empty => by simp [empty] at some
  · cases found

/-- Every literal is a single value, and something is taken for it. -/
theorem of_literal? {literal : Literal}
    (found : dialect.literal? inList text = some (literal, rest)) :
    literal.value.isSingle = true ∧ Passes text rest := by
  simp only [literal?, Option.orElse_eq_orElse, Option.orElse_eq_or, Option.or_eq_some_iff] at found
  rcases found with regex | ⟨_, number | ⟨_, bare | ⟨_, double | ⟨_, single⟩⟩⟩⟩
  · rw [regexLiteral?] at regex
    split at regex
    · obtain ⟨_, slashes, same⟩ := Option.map_eq_some_iff.mp regex
      cases same
      exact ⟨rfl, slashed_passes slashes⟩
    · cases regex
  · rw [numberLiteral?] at number
    split at number
    · next digits =>
      split at number
      · split at number
        · next value numeral =>
          cases number
          exact ⟨Value.ofNumeral_isSingle numeral, number_passes digits⟩
        · cases number
      · cases number
    · cases number
  · obtain ⟨_, word, same⟩ := Option.map_eq_some_iff.mp bare
    cases same
    exact ⟨rfl, bareWord_passes word⟩
  · rw [doubleQuoted?] at double
    split at double
    · obtain ⟨_, quotes, same⟩ := Option.map_eq_some_iff.mp double
      cases same
      exact ⟨rfl, quoted_passes quotes⟩
    · cases double
  · rw [singleQuoted?] at single
    split at single
    · obtain ⟨_, quotes, same⟩ := Option.map_eq_some_iff.mp single
      cases same
      exact ⟨rfl, quoted_passes quotes⟩
    · cases single

theorem of_scalar {literal : Literal}
    (found : dialect.scalar inList text = .ok (some (literal, rest))) :
    literal.value.isSingle = true ∧ Passes text rest := by
  rw [scalar] at found
  split at found
  · next literalFound =>
    cases found
    exact of_literal? literalFound
  · split at found <;> cases found

/-- An item of a list and the mark behind it are passed. -/
theorem item_passes {literal : Literal} {after : List Char} {mark : Char}
    (found : dialect.scalar true (text.dropWhile isGap) = .ok (some (literal, rest)))
    (ended : rest.dropWhile isGap = mark :: after) : Passes text after := by
  have inside : mark :: after <:+ rest := ended ▸ List.dropWhile_suffix _
  exact .of_suffix (List.dropWhile_suffix _)
    ((of_scalar found).2.trans_suffix ((List.suffix_cons _ _).trans inside))

/-- The items of a list are single values. Those that were collected before are, and each step
adds a literal. -/
theorem of_listItems {items values : List Value}
    (single : ∀ item ∈ items, item.isSingle = true)
    (read : dialect.listItems items text = .ok (values, rest)) :
    (∀ value ∈ values, value.isSingle = true) ∧ rest <:+ text := by
  have more {literal : Literal} {start behind : List Char} {items : List Value}
      (before : ∀ item ∈ items, item.isSingle = true)
      (found : dialect.scalar true start = .ok (some (literal, behind))) :
      ∀ item ∈ items ++ [literal.value], item.isSingle = true :=
    List.forall_mem_append.mpr ⟨before, by simpa using (of_scalar found).1⟩
  fun_induction listItems dialect items text with
  | case1 items text behind closed =>
    cases read
    exact ⟨by simp, (List.suffix_cons _ _).trans (closed ▸ List.dropWhile_suffix _)⟩
  | case6 items text literal rest behind closed open' found =>
    cases read
    exact ⟨more single found, (item_passes found closed).suffix⟩
  | case7 items text literal rest behind separated shorter open' found ih =>
    obtain ⟨each, inside⟩ := ih (more single found) read
    exact ⟨each, inside.trans (item_passes found separated).suffix⟩
  | case2 | case3 | case4 | case5 | case8 | case9 => cases read

theorem of_list {values : List Value} (read : dialect.list text = .ok (values, rest)) :
    (∀ value ∈ values, value.isSingle = true) ∧ rest <:+ text := by
  unfold list at read
  split at read
  · obtain ⟨single, inside⟩ := of_listItems (by simp) read
    exact ⟨single, inside.trans (List.suffix_cons _ _)⟩
  · cases read

/-- A comparison with a settled value has settled tokens. -/
theorem comparison_settled (field : List Char) (operator : Operator) (wildcard : String)
    (settled : value.isSettled = true) :
    Settled (comparison field operator wildcard value) := by
  cases value with
  | text content =>
    have single := promoteWildcards_isSingle operator content.toList wildcard.toList
    have value := Value.isSettled_of_isSingle single
    dsimp only [comparison]
    split <;> simp [leaf?, Leaf.value, value]
  | list items =>
    have single : ∀ item ∈ items, item.isSingle = true := by
      simpa [Value.isSettled] using settled
    simp only [comparison, Settled.cons_iff, leaf?, Option.mem_some_iff, forall_eq',
      Leaf.value, Value.isSettled, Settled.nil, and_true, List.all_map, List.all_eq_true]
    intro item listed
    cases item with
    | text => exact patternValue_isSingle _ _
    | number | pattern => rfl
    | list | absent => exact single _ listed
  | number | pattern | absent => simp [comparison, leaf?, Leaf.value, settled]

theorem of_comparison? (read : dialect.comparison? text = .ok (some (tokens, rest))) :
    Settled tokens ∧ ∃ head, dialect.head? text = some head ∧ rest <:+ head.rest := by
  rw [comparison?] at read
  split at read
  · cases read
  · next head named =>
    dsimp only at read
    split at read
    · obtain ⟨⟨values, behind⟩, listed, same⟩ := exists_of_bind read
      cases same
      obtain ⟨single, inside⟩ := of_list listed
      exact ⟨comparison_settled _ _ _ (by simpa [Value.isSettled] using single), head, named,
        inside⟩
    · obtain ⟨found, scanned, same⟩ := exists_of_bind read
      split at same
      · cases same
      · next literal behind =>
        obtain ⟨single, passes⟩ := of_scalar scanned
        have settled := Value.isSettled_of_isSingle single
        refine ⟨?_, head, named, ?_⟩ <;> split at same <;> cases same
        · simp [regexComparison, leaf?, Leaf.value, settled]
        · exact comparison_settled _ _ _ settled
        · exact passes.suffix
        · exact passes.suffix

/-- A search in the whole event for a single value has a settled token. -/
theorem keyword_settled (dialect : Dialect) (single : value.isSingle = true) :
    Settled [dialect.keyword value] := by
  cases value with
  | text content =>
    have promoted := Value.isSettled_of_isSingle
      (promoteWildcards_isSingle .eq content.toList dialect.wildcard.toList)
    dsimp only [keyword]
    split
    · simp [leaf?, Leaf.value, Value.isSettled, Value.isSingle]
    · simp [leaf?, Leaf.value, promoted]
  | number | pattern => simp [keyword, leaf?, Leaf.value, Value.isSettled, single]
  | list | absent => cases single

theorem of_keyword? (read : dialect.keyword? text = .ok (some (tokens, rest))) :
    Settled tokens ∧ Passes text rest ∧
      ∀ token ∈ tokens, token.leaf?.bind Leaf.fieldName? = none := by
  have unnamed (value : Value) :
      ∀ token ∈ [dialect.keyword value], token.leaf?.bind Leaf.fieldName? = none := by
    cases value <;> simp [keyword, leaf?, Leaf.fieldName?]
  rw [keyword?] at read
  split at read
  · obtain ⟨found, scanned, same⟩ := exists_of_bind read
    cases found with
    | none => cases same
    | some =>
      cases same
      obtain ⟨single, passes⟩ := of_scalar scanned
      exact ⟨keyword_settled dialect single, passes, unnamed _⟩
  · split at read
    · next slashes =>
      cases read
      refine ⟨by simp [slashedText, leaf?, Leaf.value, Value.isSettled, Value.isSingle], ?_,
        by simp [leaf?, Leaf.fieldName?]⟩
      split at slashes
      · exact slashed_passes slashes
      · cases slashes
    · obtain ⟨⟨word, behind⟩, bare, same⟩ := Option.map_eq_some_iff.mp (Except.ok.inj read)
      cases same
      exact ⟨keyword_settled dialect rfl, bareWord_passes bare, unnamed _⟩

/-- What one step of the walk can be. -/
inductive Stepped (dialect : Dialect) (text : List Char) : List Token → List Char → Prop
  | paren {token : Token} {c : Char} {rest : List Char} (noLeaf : token.leaf? = none)
      (written : text = c :: rest) : Stepped dialect text [token] rest
  | connective {word : String} {token : Token} {rest : List Char}
      (listed : (word, token) ∈ dialect.connectives)
      (found : dialect.connective? text = some (token, rest)) : Stepped dialect text [token] rest
  | comparison {tokens : List Token} {rest : List Char}
      (read : dialect.comparison? text = .ok (some (tokens, rest))) :
      Stepped dialect text tokens rest
  | keyword {tokens : List Token} {rest : List Char}
      (read : dialect.keyword? text = .ok (some (tokens, rest))) : Stepped dialect text tokens rest

theorem stepped_of_step (read : dialect.step text = .ok (tokens, rest)) :
    dialect.Stepped text tokens rest := by
  unfold step at read
  split at read
  · cases read
    exact .paren rfl rfl
  · cases read
    exact .paren rfl rfl
  · split at read
    · next token behind found =>
      cases read
      obtain ⟨⟨word, spelt⟩, listed, inner⟩ := List.exists_of_findSome?_eq_some found
      dsimp only at inner
      split at inner
      · split at inner <;> cases inner
        exact .connective listed found
      · cases inner
    · obtain ⟨compared, first, same⟩ := exists_of_bind read
      split at same
      · cases same
        exact .comparison first
      · dsimp only at same
        split at same
        · obtain ⟨searched, second, last⟩ := exists_of_bind same
          split at last <;> cases last
          exact .keyword second
        · cases same

theorem Solid.step_passes (solid : dialect.Solid) (read : dialect.step text = .ok (tokens, rest)) :
    Passes text rest := by
  cases stepped_of_step read with
  | paren _ written => exact written ▸ .cons List.suffix_rfl
  | connective _ found => exact solid.connective_passes found
  | comparison read =>
    obtain ⟨_, head, named, inside⟩ := of_comparison? read
    exact (solid.head_passes named).trans_suffix inside
  | keyword read => exact (of_keyword? read).2.1

variable (plain : ∀ entry ∈ dialect.connectives, entry.2.leaf? = none)
include plain

/-- One step of the walk gives settled tokens, if the connectives are no leaves. -/
theorem step_settled (read : dialect.step text = .ok (tokens, rest)) : Settled tokens := by
  cases stepped_of_step read with
  | paren noLeaf _ => simp [noLeaf]
  | connective listed => simp [plain _ listed]
  | comparison read => exact (of_comparison? read).1
  | keyword read => exact (of_keyword? read).1

/-- A walk through a text gives settled tokens. -/
theorem tokensFrom_settled (read : dialect.tokensFrom text = .ok tokens) : Settled tokens := by
  fun_induction tokensFrom dialect text generalizing tokens with
  | case1 =>
    cases read
    exact .nil
  | case4 text first rest shorter others later start stepped ih =>
    cases read
    exact Settled.append_iff.mpr ⟨step_settled plain stepped, ih later⟩
  | case2 | case3 | case5 => cases read

/-- The tokens of a query are settled. -/
theorem tokenize_settled {query : String} (read : dialect.tokenize query = .ok tokens) :
    Settled tokens := by
  rw [tokenize] at read
  split at read
  · next found walked =>
    cases read
    have settled := tokensFrom_settled plain walked
    split
    · intro token listed
      rcases mem_insertImplicitAnds listed with own | rfl
      · exact settled token own
      · simp [leaf?]
    · exact settled
  · cases read

end Dialect

namespace Sigma

theorem scalarValue_isSingle (node : Yaml.Node) : (scalarValue node).isSingle = true := by
  unfold scalarValue
  split
  · split
    · split
      · next value numeral => exact Value.ofNumeral_isSingle numeral
      · rfl
    · rfl
  · rfl

/-- A comparison of a rule is settled. -/
theorem predicate_settled (field : Field) (operator : Operator) (node : Yaml.Node) :
    Settled (predicate field operator node) := by
  rw [predicate]
  split
  · simp [leaf?, Leaf.value, Value.isSettled, Value.isSingle]
  · split
    · next content _ =>
      split
      · simp [leaf?, Leaf.value, Value.isSettled, Value.isSingle]
      · have promoted := Value.isSettled_of_isSingle
          (promoteWildcards_isSingle operator content.toList ['*'])
        dsimp only
        split <;> simp [leaf?, Leaf.value, promoted]
    · have single := Value.isSettled_of_isSingle (scalarValue_isSingle node)
      simp [leaf?, Leaf.value, single]

theorem keyword_settled (node : Yaml.Node) : Settled [keyword node] := by
  have promoted := Value.isSettled_of_isSingle
    (promoteWildcards_isSingle .eq node.rawText.toList ['*'])
  dsimp only [keyword]
  split
  · simp [leaf?, Leaf.value, Value.isSettled, Value.isSingle]
  · simp [leaf?, Leaf.value, promoted]

@[simp] theorem settled_enclosed : Settled (enclosed tokens) ↔ Settled tokens := by
  simp [enclosed, leaf?]

/-- Groups of settled tokens stay settled when they are joined. -/
theorem joinTokens_settled {connective : Token} (plain : connective.leaf? = none)
    {groups : List (List Token)} (settled : ∀ group ∈ groups, Settled group) :
    Settled (joinTokens connective groups) := by
  fun_induction joinTokens connective groups with
  | case1 => exact .nil
  | case2 last => exact settled last List.mem_cons_self
  | case3 first next others ih =>
    have rest :=
      ih fun group listed => settled group (List.mem_cons_of_mem _ listed)
    simp [settled first List.mem_cons_self, rest, plain]

/-- An entry of a table is settled. -/
theorem entryTokens_settled {key : String} {value : Yaml.Node}
    (read : entryTokens key value = .ok tokens) : Settled tokens := by
  obtain ⟨fieldKey, _, rest⟩ := exists_of_bind read
  dsimp only at rest
  split at rest
  · split at rest <;> cases rest
    simp [leaf?, Leaf.value, Value.isSettled, Value.isSingle]
  · split at rest
    · cases rest
      simp [leaf?, Leaf.value, Value.isSettled, scalarValue_isSingle]
    · cases rest
      have joined : Settled (joinTokens (if fieldKey.all then .and else .or)
          ((itemsOf value).map (predicate { name := fieldKey.field } fieldKey.operator))) := by
        refine joinTokens_settled (by split <;> rfl) fun group listed => ?_
        obtain ⟨item, _, rfl⟩ := List.mem_map.mp listed
        exact predicate_settled _ _ item
      split
      · exact settled_enclosed.mpr joined
      · exact joined

/-- A table of comparisons is settled. -/
theorem tableTokens_settled {entries : List (Yaml.Node × Yaml.Node)}
    (read : tableTokens entries = .ok tokens) : Settled tokens := by
  refine foldlM_keeps Settled ?_ .nil read
  rintro before ⟨key, value⟩ after settled step
  obtain ⟨more, entryRead, same⟩ := exists_of_bind step
  cases same
  have own := entryTokens_settled entryRead
  split <;> simp [settled, own, leaf?]

/-- An item of a selection is settled. -/
theorem itemTokens_settled {selection : String} {index : Nat}
    (read : itemTokens selection index node = .ok tokens) : Settled tokens := by
  unfold itemTokens at read
  split at read
  · obtain ⟨inner, table, same⟩ := exists_of_bind read
    cases same
    exact settled_enclosed.mpr (tableTokens_settled (mapError_ok table))
  · cases read
    exact keyword_settled _
  · cases read

/-- A selection is settled. -/
theorem selectionTokens_settled {selection : String}
    (read : selectionTokens selection node = .ok tokens) : Settled tokens := by
  unfold selectionTokens at read
  split at read
  · exact tableTokens_settled (mapError_ok read)
  · obtain ⟨groups, items, same⟩ := exists_of_bind read
    cases same
    refine joinTokens_settled rfl fun group listed => ?_
    obtain ⟨⟨item, index⟩, _, itemRead⟩ := exists_of_mem_mapM items listed
    exact itemTokens_settled itemRead
  · cases read
    exact keyword_settled _
  · cases read

/-- Selections whose tokens are settled. -/
def Selections.Settled (selections : Selections) : Prop :=
  ∀ name tokens, selections.tokens.lookup name = some tokens → Token.Settled tokens

/-- Adding a settled selection. -/
theorem Selections.Settled.add {selections : Selections} (settled : selections.Settled)
    (name : String) (own : Token.Settled tokens) : (selections.add name tokens).Settled := by
  intro other found stored
  rw [Selections.add, lookup_putEntry] at stored
  split at stored
  · cases stored
    exact own
  · exact settled other found stored

/-- Steps over settled selections yield settled tokens. -/
theorem Yields.settled {selections : Selections} (known : selections.Settled) {steps : List Step}
    (yields : Yields selections steps tokens) : Settled tokens := by
  induction yields with
  | name found => exact settled_enclosed.mpr (known _ _ found)
  | quantified connective =>
    refine settled_enclosed.mpr (joinTokens_settled (by cases connective <;> rfl) ?_)
    intro group listed
    obtain ⟨name, _, rfl⟩ := List.mem_map.mp listed
    rw [settled_enclosed]
    cases stored : selections.tokens.lookup name with
    | none => exact .nil
    | some tokens => exact known name tokens stored
  | not operand ih => simp [ih, leaf?]
  | join connective left right ihLeft ihRight =>
    cases connective <;> simp [ihLeft, ihRight, Connective.token, leaf?]

/-- Taking in an entry of a detection block keeps its selections settled. -/
theorem DetectionBlock.withEntry_settled {block after : DetectionBlock}
    (settled : block.selections.Settled) {name : String}
    (read : block.withEntry name node = .ok after) : after.selections.Settled := by
  unfold DetectionBlock.withEntry at read
  split at read
  · obtain ⟨conditions, _, same⟩ := exists_of_bind read
    cases same
    exact settled
  · cases read
    exact settled
  · obtain ⟨tokens, selected, same⟩ := exists_of_bind read
    cases same
    exact settled.add name (selectionTokens_settled selected)

/-- The tokens of a detection block with settled selections are settled. -/
theorem DetectionBlock.tokens_settled {block : DetectionBlock}
    (settled : block.selections.Settled) {aggregations : List String}
    (read : block.tokens = .ok (tokens, aggregations)) : Settled tokens := by
  unfold DetectionBlock.tokens at read
  split at read
  · cases read
  · obtain ⟨groups, expanded, same⟩ := exists_of_bind read
    cases same
    have each : ∀ group ∈ groups, Settled group := by
      intro group listed
      obtain ⟨⟨expression, aggregation⟩, _, found⟩ := exists_of_mem_mapM expanded listed
      obtain ⟨steps, _, yields⟩ := (expand_eq_ok expression group).mp found
      exact yields.settled settled
    refine joinTokens_settled rfl fun group listed => ?_
    split at listed
    · obtain ⟨inner, own, rfl⟩ := List.mem_map.mp listed
      exact settled_enclosed.mpr (each inner own)
    · exact each group listed

/-- The tokens of a detection block that was read from its entries are settled. -/
theorem detection_settled {entries : List (Yaml.Node × Yaml.Node)} {aggregations : List String}
    (read : (do
      let block ← entries.foldlM
        (fun (block : DetectionBlock) (name, node) => block.withEntry name.rawText node) {}
      block.tokens : Except DetectionFault (List Token × List String)) =
        .ok (tokens, aggregations)) : Settled tokens := by
  obtain ⟨block, collected, found⟩ := exists_of_bind read
  refine DetectionBlock.tokens_settled ?_ found
  refine foldlM_keeps (fun block : DetectionBlock => block.selections.Settled) ?_ ?_ collected
  · rintro before ⟨name, node⟩ after settled step
    exact DetectionBlock.withEntry_settled settled step
  · intro name tokens stored
    cases stored

end Sigma

/-- A search in the payload is about the value that was compared. -/
theorem Aql.value_payloadKeyword (token : Token) :
    (payloadKeyword token).leaf?.map Leaf.value = token.leaf?.map Leaf.value := by
  unfold payloadKeyword
  split
  · split <;> rfl
  · rfl

/-- The mappings of a token leave its value. -/
theorem Token.value_withMappings (mappings : List SourceMapping) (token : Token) :
    (token.withMappings mappings).leaf?.map Leaf.value = token.leaf?.map Leaf.value := by
  unfold withMappings
  split <;> rfl

/-- A query that was compiled from settled tokens. -/
def Query.Settled (query : Query) : Prop :=
  ∃ tokens, Token.Settled tokens ∧ compile tokens = .ok query.tree

/-- What stands at the root of a settled query: nothing, or a tree of the compiled shape whose
leaves are about settled values. -/
theorem Query.Settled.scope {query : Query} (settled : query.Settled) :
    query.tree = Tree.ofScope none ∨ ∃ inner, query.tree = Tree.ofScope (some inner) ∧
      inner.Inner ∧ ∀ leaf ∈ inner.leaves, leaf.value.isSettled = true := by
  obtain ⟨tokens, values, compiled⟩ := settled
  obtain ⟨scope, tree, ⟨rfl, _⟩ | ⟨inner, rfl, shape, leaves⟩⟩ := compile_scope compiled
  · exact .inl tree
  · refine .inr ⟨inner, tree, shape, fun leaf listed => ?_⟩
    rw [leaves] at listed
    obtain ⟨token, member, own⟩ := List.mem_filterMap.mp listed
    exact values token member leaf own

end Detection

import Detection.Proofs.SigmaRendering

/-!
# Excluded words in Sigma rules

A word of a query may come with a negated operator: then the query excludes what has the
word in it. A field with a negated operator is written behind NOT. A word is not: the block
that it gets is the block of the word that is searched, and the condition names that block
without NOT. So the rule for a query with excluded words is the rule for the query in which
the same words are searched, and it asks what that other query asks.
-/
namespace Detection

namespace Tree

/-- Induction over a tree, with a hypothesis for every member of a group. -/
@[elab_as_elim]
theorem induction {motive : Tree → Prop} (leaf : ∀ content, motive (leaf content))
    (group : ∀ kind members, (∀ member ∈ members, motive member) → motive (group kind members))
    (tree : Tree) : motive tree :=
  @Tree.rec motive (fun members => ∀ member ∈ members, motive member) leaf group
    (fun _ none => absurd none List.not_mem_nil)
    (fun _ _ first others _ belongs => (List.mem_cons.mp belongs).elim (· ▸ first) (others _))
    tree

mutual

def mapLeaves (change : Leaf → Leaf) : Tree → Tree
  | leaf content => leaf (change content)
  | group kind members => group kind (mapLeavesAll change members)

def mapLeavesAll (change : Leaf → Leaf) : List Tree → List Tree
  | [] => []
  | member :: others => member.mapLeaves change :: mapLeavesAll change others

end

theorem mapLeavesAll_eq (change : Leaf → Leaf) (members : List Tree) :
    mapLeavesAll change members = members.map (mapLeaves change) := by
  induction members with
  | nil => rfl
  | cons member others ih =>
    simp only [mapLeavesAll, List.map_cons, ih]

@[simp] theorem mapLeaves_leaf (change : Leaf → Leaf) (content : Leaf) :
    (leaf content).mapLeaves change = leaf (change content) := by
  rw [mapLeaves]

@[simp] theorem mapLeaves_group (change : Leaf → Leaf) (kind : GroupKind) (members : List Tree) :
    (group kind members).mapLeaves change = group kind (members.map (mapLeaves change)) := by
  rw [mapLeaves, mapLeavesAll_eq]

end Tree

/-- The operator of a search in place of one that excludes. -/
def Operator.searched (operator : Operator) : Operator :=
  if operator.negated then .keyword else operator

/-- The leaf in which a word is searched, where it was excluded before. -/
def Leaf.searched : Leaf → Leaf
  | keyword operator value wildcards => keyword operator.searched value wildcards
  | comparison field operator value wildcards => comparison field operator value wildcards

namespace Sigma

/-- The form of several values depends on the operator as far as that of each does. -/
theorem itemsOfAll_congr {first second : Operator} {values : List Value}
    (each : ∀ value ∈ values, itemOf first value = itemOf second value) :
    itemsOfAll first values = itemsOfAll second values := by
  induction values with
  | nil => rfl
  | cons value others ih =>
    rw [List.forall_mem_cons] at each
    rw [itemsOfAll, itemsOfAll, each.1, ih each.2]

theorem itemOf_searched (operator : Operator) (value : Value) :
    itemOf operator.searched value = itemOf operator value := by
  have regex : operator.searched = .regex ↔ operator = .regex := by
    cases operator <;> simp [Operator.searched, Operator.negated]
  induction value using Value.induction with
  | number => rfl
  | text => simp only [itemOf, regex]
  | pattern => rfl
  | list items ih =>
    rw [itemOf, itemOf, itemsOfAll_congr ih]
  | absent => rfl

/-- An excluded word has the form of a searched one. -/
theorem keywordItem_searched (operator : Operator) (value : Value) (wildcards : Wildcards) :
    keywordItem operator.searched value wildcards = keywordItem operator value wildcards := by
  rw [keywordItem, keywordItem, itemOf_searched]
  cases operator <;> simp [Operator.searched, Operator.negated]

section

variable (naming : FieldNaming) (mapping : SourceMapping)

theorem writeLeaf_searched (leaf : Leaf) :
    writeLeaf naming mapping leaf.searched = writeLeaf naming mapping leaf := by
  cases leaf with
  | comparison => rfl
  | keyword =>
    simp only [Leaf.searched, writeLeaf, keywordItem_searched]

/-- Words contribute no entry, whether they are excluded or searched. -/
theorem entryOfLeaf_searched (leaf : Leaf) :
    entryOfLeaf? naming mapping leaf.searched = entryOfLeaf? naming mapping leaf := by
  cases leaf <;> rfl

theorem valuesUnder_searched (key : String) (members : List Tree) :
    valuesUnder? naming mapping key (members.map (Tree.mapLeaves Leaf.searched)) =
      valuesUnder? naming mapping key members := by
  induction members with
  | nil => rfl
  | cons member others ih =>
    cases member with
    | leaf =>
      simp only [List.map_cons, Tree.mapLeaves_leaf, valuesUnder?, entryOfLeaf_searched,
        ih]
    | group => simp only [List.map_cons, Tree.mapLeaves_group, valuesUnder?]

theorem entryOfAny_searched (members : List Tree) :
    entryOfAny? naming mapping (members.map (Tree.mapLeaves Leaf.searched)) =
      entryOfAny? naming mapping members := by
  cases members with
  | nil => rfl
  | cons member =>
    cases member with
    | leaf =>
      simp only [List.map_cons, Tree.mapLeaves_leaf, entryOfAny?, entryOfLeaf_searched,
        valuesUnder_searched]
    | group => simp only [List.map_cons, Tree.mapLeaves_group, entryOfAny?]

theorem entryOfMember_searched (member : Tree) :
    entryOfMember? naming mapping (member.mapLeaves Leaf.searched) =
      entryOfMember? naming mapping member := by
  cases member with
  | leaf =>
    simp only [Tree.mapLeaves_leaf, entryOfMember?, entryOfLeaf_searched]
  | group kind =>
    cases kind <;> simp only [Tree.mapLeaves_group, entryOfMember?, entryOfAny_searched]

theorem sharedEntries_searched (taken : List String) (members : List Tree) :
    sharedEntries naming mapping taken (members.map (Tree.mapLeaves Leaf.searched)) =
      sharedEntries naming mapping taken members := by
  induction members generalizing taken with
  | nil => rfl
  | cons member others ih =>
    simp only [List.map_cons, sharedEntries, entryOfMember_searched, ih]

/-- The words of an OR are those of the OR in which they are searched. -/
theorem keywords_searched (members : List Tree) :
    keywords? (members.map (Tree.mapLeaves Leaf.searched)) =
      (keywords? members).map (List.map fun word => (word.1.searched, word.2)) := by
  have each (member : Tree) : keyword? (member.mapLeaves Leaf.searched) =
      (keyword? member).map fun word => (word.1.searched, word.2) := by
    match member with
    | .leaf (.keyword operator value wildcards) => rfl
    | .leaf (.comparison field operator value wildcards) => rfl
    | .group kind inner =>
      rw [Tree.mapLeaves_group]
      rfl
  have all : (members.map (Tree.mapLeaves Leaf.searched)).mapM keyword? =
      (members.mapM keyword?).map (List.map fun word => (word.1.searched, word.2)) := by
    induction members with
    | nil => rfl
    | cons member others ih =>
      rw [List.map_cons, List.mapM_cons, List.mapM_cons, ih, each]
      cases keyword? member <;> cases others.mapM keyword? <;> rfl
  rw [keywords?, keywords?, List.isEmpty_map, all]
  split <;> rfl

/-- An OR is merged as if its words were searched. -/
theorem mergedOr_searched (members : List Tree) :
    mergedOr? naming mapping (members.map (Tree.mapLeaves Leaf.searched)) =
      mergedOr? naming mapping members := by
  rw [mergedOr?, mergedOr?, keywords_searched, entryOfAny_searched]
  cases keywords? members with
  | none => rfl
  | some =>
    simp only [Option.map_some, List.mapM_map, Function.comp_def, keywordItem_searched]

/-- The members of a group are written as if their words were searched, if that is so for
each of them. -/
theorem writeMembers_searched {members : List Tree}
    (each : ∀ member ∈ members, writeTree naming mapping (member.mapLeaves Leaf.searched) =
      writeTree naming mapping member) (held : List Bool) :
    writeMembers naming mapping held (members.map (Tree.mapLeaves Leaf.searched)) =
      writeMembers naming mapping held members := by
  induction members generalizing held with
  | nil => rfl
  | cons member others ih =>
    rw [List.forall_mem_cons] at each
    have joined : isJoined (member.mapLeaves Leaf.searched) = isJoined member := by
      cases member <;> simp [isJoined]
    rw [List.map_cons, writeMembers, writeMembers, each.1, joined,
      ih each.2 held.tail]

/-- A tree is written as if its words were searched. -/
theorem writeTree_searched (tree : Tree) :
    writeTree naming mapping (tree.mapLeaves Leaf.searched) = writeTree naming mapping tree := by
  induction tree using Tree.induction with
  | leaf => simp only [Tree.mapLeaves_leaf, writeTree, writeLeaf_searched]
  | group kind members each =>
    rw [Tree.mapLeaves_group]
    cases kind with
    | single =>
      cases members with
      | nil => rfl
      | cons member => simp only [List.map_cons, writeTree, each member List.mem_cons_self]
    | not =>
      cases members with
      | nil => rfl
      | cons member => simp only [List.map_cons, writeTree, each member List.mem_cons_self]
    | and =>
      simp only [writeTree, sharedEntries_searched, writeMembers_searched naming mapping each]
    | or =>
      simp only [writeTree, mergedOr_searched, writeMembers_searched naming mapping each]

end

/-- The members that a tree contributes to a group around it, with other leaves. -/
theorem liftMembers_mapLeaves (change : Leaf → Leaf) (kind : GroupKind) (tree : Tree) :
    liftMembers kind (tree.mapLeaves change) =
      (liftMembers kind tree).map (Tree.mapLeaves change) := by
  cases tree with
  | leaf => simp only [Tree.mapLeaves_leaf, liftMembers, List.map_cons, List.map_nil]
  | group =>
    simp only [Tree.mapLeaves_group, liftMembers]
    split
    · rfl
    · simp only [List.map_cons, List.map_nil, Tree.mapLeaves_group]

/-- Flattening a tree does not look at its leaves. -/
theorem flatten_mapLeaves (change : Leaf → Leaf) (tree : Tree) :
    flatten (tree.mapLeaves change) = (flatten tree).mapLeaves change := by
  induction tree using Tree.induction with
  | leaf => simp only [Tree.mapLeaves_leaf, flatten]
  | group kind members each =>
    rw [Tree.mapLeaves_group, flatten, flatten, Tree.mapLeaves_group]
    congr 1
    induction members with
    | nil => rfl
    | cons member others ih =>
      rw [List.forall_mem_cons] at each
      rw [List.map_cons, flattenMembers, flattenMembers, each.1, liftMembers_mapLeaves,
        ih each.2, List.map_append]

/-- The rule of a condition is the rule of the condition in which its words are searched. -/
theorem writeCondition_searched (naming : FieldNaming) (mapping : SourceMapping) (tree : Tree) :
    writeCondition naming mapping (tree.mapLeaves Leaf.searched) =
      writeCondition naming mapping tree := by
  rw [writeCondition, writeCondition, flatten_mapLeaves, writeTree_searched]

/-- Whether a leaf holds, where a word with a negated operator holds if it is not found. -/
def polarHolds (naming : FieldNaming) (mapping : SourceMapping) (truth : Atom → Bool) : Leaf → Bool
  | .keyword operator value wildcards =>
    if operator.negated then
      !searches truth ((positive? operator).getD operator) wildcards value
    else searches truth operator wildcards value
  | .comparison field operator value wildcards =>
    leafHolds naming mapping truth (.comparison field operator value wildcards)

/-- A search asks the same whether its operator is replaced or not. -/
theorem searches_searched (truth : Atom → Bool) (operator : Operator) (wildcards : Wildcards)
    (value : Value) :
    searches truth operator.searched wildcards value = searches truth operator wildcards value := by
  cases value <;> simp only [searches, formOf, itemOf_searched, keywordItem_searched]

/-- What a rule asks for a leaf is the leaf with its word searched. -/
theorem polarHolds_searched (naming : FieldNaming) (mapping : SourceMapping) (truth : Atom → Bool)
    (leaf : Leaf) :
    polarHolds naming mapping truth leaf.searched = leafHolds naming mapping truth leaf := by
  cases leaf with
  | comparison => rfl
  | keyword operator value wildcards =>
    have found : operator.searched.negated = false := by
      cases operator <;> rfl
    simp only [Leaf.searched, polarHolds, found, Bool.false_eq_true, ↓reduceIte, leafHolds]
    exact searches_searched truth operator wildcards value

/-- The rule for a compiled condition does not say that a word is excluded: the same text and
blocks are written for the condition in which all its words are searched, and that other
condition is what the rule asks, when a word with a negated operator counts as excluded. -/
theorem writeCondition_searches_excluded (naming : FieldNaming) (mapping : SourceMapping)
    (tokens : List Token) (tree : Tree) (compiled : compile tokens = .ok tree)
    (some : tree.leaves ≠ []) (sayable : ∀ leaf ∈ tree.leaves, Sayable naming mapping leaf)
    (text : String) (blocks : List Block)
    (rendered : writeCondition naming mapping tree = .ok (text, blocks)) :
    writeCondition naming mapping (tree.mapLeaves Leaf.searched) = .ok (text, blocks) ∧
    ∃ expression, Reads 1 (terms text) expression ∧
      ∀ truth, expression.value (blockHolds truth blocks) =
        tree.value fun leaf => polarHolds naming mapping truth leaf.searched := by
  obtain ⟨expression, draft, written, rfl, adds⟩ :=
    writeCondition_adds compiled some sayable rendered
  refine ⟨(writeCondition_searched naming mapping tree).trans rendered, expression,
    written.reads_terms, fun truth => ?_⟩
  simpa [polarHolds_searched] using List.singleton_inj.mp (adds.value truth [])

/-- The theorem at `NOT a AND NOT (NOT b OR c)`, where the NOTs in front of `a` and `b` are
those of negated operators. Only the other NOT is in the rule. -/
theorem writeCondition_searches_excluded_mixed :
    let mapping : SourceMapping := ⟨"default", none, {}⟩
    let naming : FieldNaming := ⟨"sigma", ⟨"sigma", [], mapping⟩, false⟩
    let word (operator : Operator) (text : String) : Leaf := .keyword operator (.text text) {}
    let tree : Tree := .group .and [.leaf (word .neq "a"),
      .group .not [.group .or [.leaf (word .notContains "b"), .leaf (word .keyword "c")]]]
    let text := "keyword1 and not keyword2"
    let blocks : List Block :=
      [⟨"keyword1", .keywords [.text "a"]⟩, ⟨"keyword2", .keywords [.text "b", .text "c"]⟩]
    compile [.leaf (word .neq "a"), .and, .not, .opening, .leaf (word .notContains "b"), .or,
      .leaf (word .keyword "c"), .closing] = .ok tree ∧
    tree.leaves ≠ [] ∧ (∀ leaf ∈ tree.leaves, Sayable naming mapping leaf) ∧
    writeCondition naming mapping tree = .ok (text, blocks) ∧
    writeCondition naming mapping (tree.mapLeaves Leaf.searched) = .ok (text, blocks) ∧
    ∃ expression, Reads 1 (terms text) expression ∧
      ∀ truth, expression.value (blockHolds truth blocks) =
        tree.value fun leaf => polarHolds naming mapping truth leaf.searched := by
  intro mapping naming word tree text blocks
  have compiled : compile [.leaf (word .neq "a"), .and, .not, .opening,
      .leaf (word .notContains "b"), .or, .leaf (word .keyword "c"), .closing] = .ok tree := rfl
  have some : tree.leaves ≠ [] := List.cons_ne_nil _ _
  have sayable : ∀ leaf ∈ tree.leaves, Sayable naming mapping leaf := by
    have leaves : tree.leaves = [word .neq "a", word .notContains "b", word .keyword "c"] := rfl
    simp only [leaves, List.forall_mem_cons, List.not_mem_nil, IsEmpty.forall_iff, implies_true,
      and_true]
    exact ⟨trivial, trivial, trivial⟩
  have rendered : writeCondition naming mapping tree = .ok (text, blocks) := rfl
  exact ⟨compiled, some, sayable, rendered, writeCondition_searches_excluded naming mapping _ tree
    compiled some sayable text blocks rendered⟩

/-- A single excluded word is written as a rule that asks for the word: an event with the
word in it fits the rule and not the condition. -/
theorem excluded_word_is_searched :
    let mapping : SourceMapping := ⟨"default", none, {}⟩
    let naming : FieldNaming := ⟨"sigma", ⟨"sigma", [], mapping⟩, false⟩
    let word : Leaf := .keyword .neq (.text "mimikatz") {}
    let tree : Tree := .group .single [.leaf word]
    let blocks : List Block := [⟨"keyword1", .keywords [.text "mimikatz"]⟩]
    compile [.leaf word] = .ok tree ∧
    writeCondition naming mapping tree = .ok ("keyword1", blocks) ∧
    (∀ expression, Reads 1 (terms "keyword1") expression → expression = .name "keyword1") ∧
    (Expression.name "keyword1").value (blockHolds (fun _ => true) blocks) = true ∧
    tree.value (polarHolds naming mapping fun _ => true) = false := by
  intro mapping naming word tree blocks
  have written := @written_numbered "keyword" (by simp [stems]) 1
  have spelt : "keyword" ++ toString 1 = "keyword1" := by decide
  rw [spelt] at written
  exact ⟨rfl, rfl, fun expression other => other.unique written.loosen.reads_terms, rfl, rfl⟩

end Sigma

end Detection

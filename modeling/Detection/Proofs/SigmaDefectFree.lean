import Detection.Proofs.DefectFree
import Detection.Proofs.SigmaRendering
import Detection.Proofs.SignedMappings

/-!
# Writing rules without defects

A Sigma rule is written from the blocks of a condition, which are collected in a draft. Blocks
hold the forms of values, and a settled value has one. A rule also names the log source of its
mapping, so that the mapping has to have a signature.
-/
namespace Detection

namespace Sigma

/-- Single values have forms in a block. -/
theorem exists_itemOf_single (operator : Operator) {value : Value}
    (single : value.isSingle = true) : ∃ item, itemOf operator value = .ok item := by
  cases value with
  | number | text | pattern => exact ⟨_, by rw [itemOf]⟩
  | list | absent => cases single

theorem exists_itemsOfAll (operator : Operator) {values : List Value}
    (single : ∀ value ∈ values, value.isSingle = true) :
    ∃ items, itemsOfAll operator values = .ok items := by
  induction values with
  | nil => exact ⟨[], by rw [itemsOfAll]⟩
  | cons value others ih =>
    obtain ⟨first, made⟩ := exists_itemOf_single operator (single value List.mem_cons_self)
    obtain ⟨rest, othersMade⟩ :=
      ih fun other listed => single other (List.mem_cons_of_mem _ listed)
    refine ⟨first :: rest, ?_⟩
    rw [itemsOfAll, made, othersMade]
    rfl

/-- Settled values have forms in a block. -/
theorem exists_itemOf (operator : Operator) {value : Value} (settled : value.isSettled = true) :
    ∃ item, itemOf operator value = .ok item := by
  rcases Value.isSettled_iff.mp settled with single | ⟨values, rfl, single⟩
  · exact exists_itemOf_single operator single
  · obtain ⟨forms, made⟩ := exists_itemsOfAll operator single
    refine ⟨.list forms, ?_⟩
    rw [itemOf, made]
    rfl

theorem exists_keywordItem (operator : Operator) (wildcards : Wildcards) {value : Value}
    (settled : value.isSettled = true) :
    ∃ item, keywordItem operator value wildcards = .ok item := by
  obtain ⟨item, made⟩ := exists_itemOf operator settled
  rw [keywordItem, made]
  cases item <;> exact ⟨_, rfl⟩

theorem exists_entryFor (field : String) (operator : Operator) {value : Value}
    (settled : value.isSettled = true) : ∃ entry, entryFor field operator value = .ok entry := by
  obtain ⟨item, made⟩ := exists_itemOf operator settled
  rw [entryFor]
  split
  · exact ⟨_, rfl⟩
  · rw [made]
    exact ⟨_, rfl⟩

variable {naming : FieldNaming} {mapping : SourceMapping}

/-- The entry of a leaf meets no defect. -/
theorem entryOfLeaf_defectFree {leaf : Leaf} (settled : leaf.value.isSettled = true) :
    DefectFree (entryOfLeaf? naming mapping leaf) := by
  cases leaf with
  | keyword => exact .ok none
  | comparison field operator value =>
    rw [entryOfLeaf?]
    split
    · exact .ok none
    · refine (naming.names_defectFree mapping field).bind fun names _ => ?_
      split
      · next name _ =>
        have own : value.isSettled = true := settled
        obtain ⟨entry, made⟩ := exists_entryFor name operator own
        rw [made]
        exact .ok _
      · exact .pure none

theorem valuesUnder_defectFree (key : String) {members : List Tree}
    (settled : ∀ leaf ∈ members.flatMap Tree.leaves, leaf.value.isSettled = true) :
    DefectFree (valuesUnder? naming mapping key members) := by
  induction members with
  | nil => exact .ok _
  | cons member others ih =>
    rw [List.flatMap_cons, List.forall_mem_append] at settled
    cases member with
    | group => exact .ok none
    | leaf content =>
      have own : content.value.isSettled = true := settled.1 content (by simp)
      rw [valuesUnder?]
      refine (entryOfLeaf_defectFree own).bind fun entry _ => ?_
      cases entry with
      | none => exact .pure none
      | some =>
        dsimp only
        split
        · simpa using ih settled.2
        · exact .pure none

theorem entryOfAny_defectFree {members : List Tree}
    (settled : ∀ leaf ∈ members.flatMap Tree.leaves, leaf.value.isSettled = true) :
    DefectFree (entryOfAny? naming mapping members) := by
  unfold entryOfAny?
  split
  · next content others =>
    rw [List.flatMap_cons, List.forall_mem_append] at settled
    have own : content.value.isSettled = true := settled.1 content (by simp)
    refine (entryOfLeaf_defectFree own).bind fun entry _ => ?_
    cases entry with
    | none => exact .pure none
    | some entry => simpa using valuesUnder_defectFree entry.key settled.2
  · exact .pure none

theorem entryOfMember_defectFree {member : Tree}
    (settled : ∀ leaf ∈ member.leaves, leaf.value.isSettled = true) :
    DefectFree (entryOfMember? naming mapping member) := by
  unfold entryOfMember?
  split
  · exact entryOfLeaf_defectFree (settled _ (by simp))
  · exact entryOfAny_defectFree (by simpa using settled)
  · exact .ok none

theorem sharedEntries_defectFree (taken : List String) {members : List Tree}
    (settled : ∀ leaf ∈ members.flatMap Tree.leaves, leaf.value.isSettled = true) :
    DefectFree (sharedEntries naming mapping taken members) := by
  induction members generalizing taken with
  | nil => exact .ok _
  | cons member others ih =>
    rw [List.flatMap_cons, List.forall_mem_append] at settled
    rw [sharedEntries]
    refine (entryOfMember_defectFree settled.1).bind fun entry _ => ?_
    cases entry with
    | none => simpa using ih taken settled.2
    | some entry =>
      dsimp only
      split
      · simpa using ih taken settled.2
      · simpa using ih (entry.key :: taken) settled.2

/-- Writing that meets no defect, whatever was written before. -/
def Careful {α : Type} (step : Writing α) : Prop :=
  ∀ draft, DefectFree (step.run draft)

namespace Careful

variable {α β : Type}

theorem pure (result : α) : Careful (pure result) :=
  fun _ => .ok _

theorem bind {step : Writing α} {next : α → Writing β} (first : Careful step)
    (second : ∀ middle, Careful (next middle)) : Careful (step >>= next) := by
  intro draft
  rw [StateT.run_bind]
  exact (first draft).bind fun result _ => second result.1 result.2

theorem lift {step : Except RenderError α} (free : DefectFree step) :
    Careful (liftM step : Writing α) := by
  intro draft
  cases step with
  | error =>
    rw [DefectFree.error_iff] at free
    exact DefectFree.error_iff.mpr free
  | ok => exact .ok _

theorem mapM {entries : List α} {step : α → Writing β}
    (each : ∀ entry ∈ entries, Careful (step entry)) : Careful (entries.mapM step) := by
  induction entries with
  | nil => exact pure []
  | cons entry others ih =>
    rw [List.mapM_cons]
    have rest := ih fun other listed => each other (List.mem_cons_of_mem _ listed)
    exact (each entry List.mem_cons_self).bind fun first => rest.bind fun later => pure _

theorem newSelection (content : BlockContent) : Careful (newSelection content) :=
  fun _ => .ok _

theorem newKeywords (items : List Item) : Careful (newKeywords items) :=
  fun _ => .ok _

end Careful

/-- Writing an OR as one block meets no defect. -/
theorem mergedOr_careful {members : List Tree}
    (settled : ∀ leaf ∈ members.flatMap Tree.leaves, leaf.value.isSettled = true) :
    Careful (mergedOr? naming mapping members) := by
  unfold mergedOr?
  split
  · next words found =>
    refine Careful.bind (.mapM fun word listed => ?_) fun items =>
      (Careful.newKeywords items).bind fun name => .pure _
    obtain ⟨operator, value, wildcards⟩ := word
    have own : value.isSettled = true := by
      rw [eq_of_keywords found] at settled
      refine settled (.keyword operator value wildcards) (List.mem_flatMap.mpr ?_)
      exact ⟨_, List.mem_map_of_mem listed, by simp⟩
    obtain ⟨item, made⟩ := exists_keywordItem operator wildcards own
    exact .lift (.orDefect made)
  · refine (Careful.lift (entryOfAny_defectFree settled)).bind fun entry => ?_
    cases entry with
    | none => exact .pure none
    | some => exact (Careful.newSelection _).bind fun name => .pure _

theorem writeLeaf_careful {leaf : Leaf} (settled : leaf.value.isSettled = true) :
    Careful (writeLeaf naming mapping leaf) := by
  cases leaf with
  | keyword operator value wildcards =>
    obtain ⟨item, made⟩ := exists_keywordItem operator wildcards settled
    exact (Careful.lift (.orDefect made)).bind fun item => .newKeywords [item]
  | comparison field operator value =>
    refine (Careful.lift (naming.names_defectFree mapping field)).bind fun names => ?_
    have entries : DefectFree (Except.orDefect
        (names.mapM (entryFor · ((positive? operator).getD operator) value))) := by
      obtain ⟨entries, made⟩ := exists_mapM fun name (_ : name ∈ names) =>
        exists_entryFor name ((positive? operator).getD operator) settled
      exact .orDefect made
    exact (Careful.lift entries).bind fun entries =>
      (Careful.newSelection _).bind fun name => .pure _

/-- Writing the members of a group meets no defect if writing each of them does not. -/
theorem writeMembers_careful (held : List Bool) {members : List Tree}
    (each : ∀ member ∈ members, Careful (writeTree naming mapping member)) :
    Careful (writeMembers naming mapping held members) := by
  induction members generalizing held with
  | nil => exact .pure []
  | cons member others ih =>
    have rest := ih held.tail fun other listed =>
      each other (List.mem_cons_of_mem _ listed)
    rw [writeMembers]
    split
    · exact rest
    · refine (each member List.mem_cons_self).bind fun text => rest.bind fun parts => ?_
      split
      · exact .pure _
      · exact .pure _

/-- Writing members that a connective joins meets no defect if writing each of them does not. -/
theorem writeGroup_careful (connective : Connective) {members : List Tree}
    (settled : ∀ leaf ∈ members.flatMap Tree.leaves, leaf.value.isSettled = true)
    (each : ∀ member ∈ members, Careful (writeTree naming mapping member)) :
    Careful (writeTree naming mapping (.group connective.kind members)) := by
  cases connective with
  | or =>
    rw [Connective.kind, writeTree]
    refine (mergedOr_careful settled).bind fun merged => ?_
    cases merged with
    | some name => exact .pure name
    | none => exact (writeMembers_careful [] each).bind fun parts => .pure _
  | and =>
    rw [Connective.kind, writeTree]
    refine (Careful.lift (sharedEntries_defectFree [] settled)).bind fun shared => ?_
    obtain ⟨entries, flags⟩ := shared
    have rest (common : List String) : Careful (do
        return Text.join " and " (common ++ (← writeMembers naming mapping flags members))) :=
      (writeMembers_careful flags each).bind fun parts => .pure _
    dsimp only
    split
    · exact rest []
    · exact (Careful.newSelection _).bind fun name => rest [name]

/-- Writing a tree of the compiled shape with settled values meets no defect. -/
theorem writeTree_careful {tree : Tree} (inner : tree.Inner)
    (settled : ∀ leaf ∈ tree.leaves, leaf.value.isSettled = true) :
    Careful (writeTree naming mapping tree) := by
  induction inner with
  | leaf content =>
    rw [writeTree]
    exact writeLeaf_careful (settled content (by simp))
  | negation member inner ih =>
    rw [writeTree]
    exact (ih (by simpa using settled)).bind fun text => .pure _
  | joined connective members several each ih =>
    rw [Tree.leaves_group] at settled
    refine writeGroup_careful connective settled fun member belongs => ?_
    exact ih member belongs fun leaf own =>
      settled leaf (List.mem_flatMap.mpr ⟨member, belongs, own⟩)

/-- Writing the condition of a settled query meets no defect. -/
theorem writeCondition_defectFree {query : Query} (settled : query.Settled) :
    DefectFree (writeCondition naming mapping query.tree) := by
  have written : Careful (writeTree naming mapping (flatten query.tree)) := by
    rcases settled.scope with nothing | ⟨inner, tree, shape, values⟩
    · rw [nothing]
      exact writeGroup_careful .and (by simp [flattenMembers]) (by simp [flattenMembers])
    · have flat := flatten_replaces shape
      rw [tree, writeTree_ofScope]
      exact writeTree_careful flat.inner (flat.leaves ▸ values)
  exact (written {}).bind fun _ _ => .pure _

theorem settledNode_defectFree (item : Item) : DefectFree item.settledNode := by
  unfold Item.settledNode
  split <;> simp

theorem entriesNode_defectFree (entries : List Entry) : DefectFree (entriesNode entries) := by
  refine DefectFree.bind (.mapM fun entry _ => ?_) fun nodes _ => .pure _
  simpa using settledNode_defectFree entry.value

theorem blockNode_defectFree (content : BlockContent) : DefectFree content.node := by
  cases content with
  | all entries => exact entriesNode_defectFree entries
  | any =>
    exact DefectFree.bind (.mapM fun entry _ => entriesNode_defectFree [entry])
      fun nodes _ => .pure _
  | keywords items => exact settledNode_defectFree (.list items)

/-- The document of a rule meets no defect. -/
theorem document_defectFree (info : Meta) (signature : Signature) (expression : String)
    (blocks : List Block) : DefectFree (document info signature expression blocks) := by
  refine DefectFree.bind (.mapM fun block _ => ?_) fun nodes _ => .pure _
  simpa using blockNode_defectFree block.content

end Sigma

/-- A settled query is written as a rule without meeting a defect, if the mappings have
signatures. -/
theorem Sigma.render_defectFree {naming : FieldNaming} (signed : naming.repository.Signed)
    {query : Query} (settled : query.Settled) : DefectFree (Sigma.render naming query) := by
  unfold Sigma.render
  refine (writeCondition_defectFree settled).bind fun written _ => ?_
  obtain ⟨expression, blocks⟩ := written
  dsimp only
  split
  · next unsigned =>
    have some := signed.first (query.info.getD .initial).mappingIds
    rw [unsigned] at some
    cases some
  · next signature _ =>
    exact (document_defectFree _ signature expression blocks).bind fun root _ => .pure _

end Detection

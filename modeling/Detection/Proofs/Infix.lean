import Detection.Proofs.Outcomes
import Detection.Proofs.TreeValue
import Detection.Render.Query

/-!
# Written conditions

A rendered condition is a text of clauses, the words for NOT, AND and OR, and
parentheses. Here is the grammar of such texts: on one level of parentheses stand
operands that are all joined by the same connective, and an operand is a clause, NOT
in front of an operand, or a condition between parentheses. A reader of the text
therefore needs to know that NOT binds its operand most tightly, and nothing about
the strength of AND and OR.

The renderer leaves out parentheses wherever the connective does not change, so that
a group inside a group of the same kind contributes its members to the level around
it. The written condition is therefore flatter than the tree, and has its value.
-/
namespace Detection

open Text Connective

variable {form : QueryForm} {mapping : SourceMapping} {member : Tree}
  {members : List Tree} {parts : List String}

namespace Connective

/-- The value of several operands that a connective joins. -/
def valueOf : Connective → List Bool → Bool
  | and, values => values.all id
  | or, values => values.any id

/-- A part that is joined by the same connective counts as one value. -/
theorem valueOf_append (connective : Connective) (left right : List Bool) :
    connective.valueOf (left ++ right) =
      connective.apply (connective.valueOf left) (connective.valueOf right) := by
  cases connective <;> simp [valueOf, apply]

/-- The first value is joined to that of the others. -/
theorem valueOf_cons (connective : Connective) (value : Bool) (others : List Bool) :
    connective.valueOf (value :: others) = connective.apply value (connective.valueOf others) := by
  cases connective <;> simp [valueOf, apply]

/-- Parts that are joined by the same connective count as one value each. -/
theorem valueOf_flatten (connective : Connective) (parts : List (List Bool)) :
    connective.valueOf parts.flatten = connective.valueOf (parts.map connective.valueOf) := by
  induction parts with
  | nil => rfl
  | cons part others ih =>
    rw [List.flatten_cons, valueOf_append, ih, List.map_cons, valueOf_cons]

/-- A value that is joined to the first one can count as a value of its own. -/
theorem valueOf_apply (connective : Connective) (before value : Bool) (others : List Bool) :
    connective.valueOf (connective.apply before value :: others) =
      connective.valueOf (before :: value :: others) := by
  cases connective <;> simp [valueOf, apply, Bool.and_assoc, Bool.or_assoc]

@[simp] theorem valueOf_singleton (connective : Connective) (value : Bool) :
    connective.valueOf [value] = value := by
  cases connective <;> simp [valueOf]

end Connective

/-- A group has the value of its connective over the values of its members. -/
theorem Tree.value_kind (truth : Leaf → Bool) (connective : Connective) (members : List Tree) :
    (group connective.kind members).value truth =
      connective.valueOf (members.map (value truth)) := by
  cases connective with
  | and =>
    rw [kind, value_and, valueOf, List.all_map]
    rfl
  | or =>
    rw [kind, value_or, valueOf, List.any_map]
    rfl

/-- An operand of a written condition. -/
inductive Operand
  | clause (leaf : Leaf)
  | negated (operand : Operand)
  | enclosed (connective : Connective) (first : Operand) (others : List Operand)

/-- The operands on one level of parentheses and the connective that joins them. -/
structure Infix where
  connective : Connective
  first : Operand
  others : List Operand

/-- The words and clauses that a condition is written with. -/
structure Wording where
  connective : Connective → String
  negation : String
  clause : Leaf → String

variable {condition : Infix}

namespace Operand

mutual

def text (wording : Wording) : Operand → String
  | clause leaf => wording.clause leaf
  | negated operand => wording.negation ++ " " ++ operand.text wording
  | enclosed connective first others =>
    "(" ++ join (" " ++ wording.connective connective ++ " ")
      (first.text wording :: textAll wording others) ++ ")"

def textAll (wording : Wording) : List Operand → List String
  | [] => []
  | operand :: others => operand.text wording :: textAll wording others

end

mutual

/-- Whether an operand holds under an assignment. -/
def value (truth : Leaf → Bool) : Operand → Bool
  | clause leaf => truth leaf
  | negated operand => !operand.value truth
  | enclosed connective first others =>
    connective.valueOf (first.value truth :: valueAll truth others)

def valueAll (truth : Leaf → Bool) : List Operand → List Bool
  | [] => []
  | operand :: others => operand.value truth :: valueAll truth others

end

mutual

/-- The leaves of the clauses in an operand from left to right. -/
def leaves : Operand → List Leaf
  | clause leaf => [leaf]
  | negated operand => operand.leaves
  | enclosed _ first others => first.leaves ++ leavesAll others

/-- The leaves of the clauses in several operands from left to right. -/
def leavesAll : List Operand → List Leaf
  | [] => []
  | operand :: others => operand.leaves ++ leavesAll others

end

theorem textAll_eq (wording : Wording) (operands : List Operand) :
    textAll wording operands = operands.map (text wording) := by
  induction operands with
  | nil => rfl
  | cons operand others ih =>
    simp only [textAll, List.map_cons, ih]

theorem valueAll_eq (truth : Leaf → Bool) (operands : List Operand) :
    valueAll truth operands = operands.map (value truth) := by
  induction operands with
  | nil => rfl
  | cons operand others ih =>
    simp only [valueAll, List.map_cons, ih]

theorem leavesAll_eq (operands : List Operand) :
    leavesAll operands = operands.flatMap leaves := by
  induction operands with
  | nil => rfl
  | cons operand others ih =>
    simp only [leavesAll, List.flatMap_cons, ih]

end Operand

namespace Infix

def operands (condition : Infix) : List Operand := condition.first :: condition.others

def text (wording : Wording) (condition : Infix) : String :=
  join (" " ++ wording.connective condition.connective ++ " ")
    (condition.operands.map (Operand.text wording))

/-- Whether a condition holds under an assignment. -/
def value (truth : Leaf → Bool) (condition : Infix) : Bool :=
  condition.connective.valueOf (condition.operands.map (Operand.value truth))

/-- The leaves of the clauses in a condition from left to right. -/
def leaves (condition : Infix) : List Leaf := condition.operands.flatMap Operand.leaves

/-- The operand that a condition is between parentheses. -/
def enclosed (condition : Infix) : Operand :=
  .enclosed condition.connective condition.first condition.others

@[simp] theorem text_enclosed (wording : Wording) (condition : Infix) :
    condition.enclosed.text wording = "(" ++ condition.text wording ++ ")" := by
  simp only [enclosed, Operand.text, Operand.textAll_eq, text, operands, List.map_cons]

@[simp] theorem value_enclosed (truth : Leaf → Bool) (condition : Infix) :
    condition.enclosed.value truth = condition.value truth := by
  simp only [enclosed, Operand.value, Operand.valueAll_eq, value, operands, List.map_cons]

@[simp] theorem leaves_enclosed (condition : Infix) :
    condition.enclosed.leaves = condition.leaves := by
  simp only [enclosed, Operand.leaves, Operand.leavesAll_eq, leaves, operands, List.flatMap_cons]

/-- The condition that is a single operand. -/
def ofOperand (operand : Operand) : Infix := ⟨.and, operand, []⟩

@[simp] theorem value_ofOperand (truth : Leaf → Bool) (operand : Operand) :
    (ofOperand operand).value truth = operand.value truth := by
  simp [ofOperand, value, operands]

@[simp] theorem leaves_ofOperand (operand : Operand) :
    (ofOperand operand).leaves = operand.leaves := by
  simp [ofOperand, leaves, operands]

end Infix

/-- Joining parts that are joined by the same separator is joining all their pieces. -/
theorem join_flatten (separator : String) (parts : List (List String))
    (each : ∀ part ∈ parts, part ≠ []) :
    join separator (parts.map (join separator)) = join separator parts.flatten := by
  induction parts with
  | nil => rfl
  | cons part others ih =>
    have tail := ih fun other member => each other (List.mem_cons_of_mem _ member)
    cases others with
    | nil => simp [join]
    | cons next remaining =>
      have partSome : part ≠ [] := each part (by simp)
      have restSome : (next :: remaining).flatten ≠ [] := by
        have nextSome : next ≠ [] := each next (by simp)
        simp [nextSome]
      rw [List.flatten_cons, join_append separator part _ partSome restSome, ← tail]
      rfl

/-- Joining pieces, the first of which is not empty, gives a text. -/
theorem join_ne_empty (separator piece : String) (others : List String) (some : piece ≠ "") :
    join separator (piece :: others) ≠ "" := by
  cases others with
  | nil => exact some
  | cons =>
    intro empty
    simp only [join, String.append_eq_empty_iff] at empty
    exact some empty.1.1

/-- What stands in front of pieces that are put one behind the other stays there. -/
theorem foldl_append (separator lead first : String) (others : List String) :
    others.foldl (fun text part => text ++ separator ++ part) (lead ++ first) =
      lead ++ others.foldl (fun text part => text ++ separator ++ part) first := by
  induction others generalizing first with
  | nil => rfl
  | cons next others ih =>
    have step := ih (first ++ separator ++ next)
    simpa [String.append_assoc] using step

/-- Joining pieces is putting one behind the other. -/
theorem join_eq_foldl (separator first : String) (others : List String) :
    join separator (first :: others) =
      others.foldl (fun text part => text ++ separator ++ part) first := by
  induction others generalizing first with
  | nil => rfl
  | cons next others ih =>
    rw [join, ih, List.foldl_cons, foldl_append]

namespace QueryForm

/-- What a platform writes for a leaf, where it writes anything. -/
def clause (form : QueryForm) (mapping : SourceMapping) (leaf : Leaf) : String :=
  (form.leaf mapping leaf).toOption.getD ""

/-- The words and clauses of a platform under a mapping. -/
def wording (form : QueryForm) (mapping : SourceMapping) : Wording where
  connective
    | .and => form.words.and
    | .or => form.words.or
  negation := form.notWord
  clause := form.clause mapping

/-- The word of a platform between the operands that a connective joins. -/
def separator (form : QueryForm) (connective : Connective) : String :=
  " " ++ (if connective.kind = .or then form.words.or else form.words.and) ++ " "

theorem text_eq_join (form : QueryForm) (mapping : SourceMapping) (condition : Infix) :
    condition.text (form.wording mapping) =
      join (form.separator condition.connective)
        (condition.operands.map (Operand.text (form.wording mapping))) := by
  obtain ⟨connective, first, others⟩ := condition
  cases connective <;> rfl

/-- A joined group is the join of what its members contribute. -/
theorem condition_joined (form : QueryForm) (mapping : SourceMapping) (connective : Connective)
    (members : List Tree) :
    form.condition mapping (.group connective.kind members) = do
      let parts ← form.conditions mapping connective.kind members
      return join (form.separator connective) parts := by
  cases connective <;> rw [kind, condition] <;> simp [separator, kind]

/-- A text that writes a tree: it is the text of a condition over the clauses of the
leaves, and the condition has the value of the tree under every assignment. -/
structure Writes (form : QueryForm) (mapping : SourceMapping) (tree : Tree) (text : String)
    (condition : Infix) : Prop where
  text : condition.text (form.wording mapping) = text
  leaves : condition.leaves = tree.leaves
  clauses : ∀ leaf ∈ tree.leaves, form.leaf mapping leaf = .ok (form.clause mapping leaf)
  value : ∀ truth, condition.value truth = tree.value truth

end QueryForm

/-- The outermost connective of a condition is that of the tree, and a condition for
anything but a joined group is a single operand. -/
def Infix.Fits (condition : Infix) : Tree → Prop
  | .group .and _ => condition.connective = .and
  | .group .or _ => condition.connective = .or
  | _ => condition.others = []

/-- The operands that a member contributes to the level of its group. Their text is
what the renderer puts there, parentheses included. -/
structure Contributes (form : QueryForm) (mapping : SourceMapping) (connective : Connective)
    (member : Tree) (part : String) (operands : List Operand) : Prop where
  some : operands ≠ []
  text : join (form.separator connective)
    (operands.map (Operand.text (form.wording mapping))) = part
  leaves : operands.flatMap Operand.leaves = member.leaves
  value : ∀ truth, connective.valueOf (operands.map (Operand.value truth)) = member.value truth

namespace QueryForm

/-- A single operand contributes itself, whatever the connective around it. -/
theorem contributes_single {text : String} (writes : form.Writes mapping member text condition)
    (alone : condition.others = []) (connective : Connective) :
    Contributes form mapping connective member text [condition.first] := by
  have operands : condition.operands = [condition.first] := by
    rw [Infix.operands, alone]
  refine ⟨List.cons_ne_nil _ _, ?_, ?_, ?_⟩
  · rw [← writes.text, text_eq_join, operands]
    rfl
  · rw [← writes.leaves, Infix.leaves, operands]
  · intro truth
    rw [← writes.value truth, Infix.value, operands, List.map_singleton,
      valueOf_singleton, valueOf_singleton]

/-- What a member puts on the level of its group. A group of the same kind hands over
its operands, a group of the other kind becomes one operand between parentheses. -/
theorem contributes_member {text : String} (writes : form.Writes mapping member text condition)
    (fits : condition.Fits member) (inner : member.Inner) (connective : Connective) :
    ∃ operands, Contributes form mapping connective member
      (if needsParentheses connective.kind member then "(" ++ text ++ ")" else text) operands := by
  cases inner with
  | leaf | negation => exact ⟨_, contributes_single writes fits connective⟩
  | joined own members several each =>
    have same : condition.connective = own := by
      cases own <;> exact fits
    have compound : members.length > 1 := by omega
    by_cases alike : own = connective
    · subst alike
      have bare : needsParentheses own.kind (.group own.kind members) = false := by
        cases own <;> simp [needsParentheses, kind]
      rw [bare]
      refine ⟨condition.operands, List.cons_ne_nil _ _, ?_, writes.leaves, ?_⟩
      · rw [← same, ← text_eq_join, writes.text]
        rfl
      · intro truth
        rw [← writes.value truth, Infix.value, same]
    · have wrapped : needsParentheses connective.kind (.group own.kind members) = true := by
        cases own <;> cases connective <;> simp_all [needsParentheses, kind]
      rw [wrapped]
      refine ⟨[condition.enclosed], List.cons_ne_nil _ _, ?_, ?_, ?_⟩
      · simp [join, writes.text]
      · simp [writes.leaves]
      · intro truth
        simp [writes.value truth]

/-- The operand that a negation puts its word in front of. A joined group has several
members, so it stands between parentheses. -/
theorem exists_operand {text : String} (writes : form.Writes mapping member text condition)
    (fits : condition.Fits member) (inner : member.Inner) :
    ∃ operand : Operand, operand.text (form.wording mapping) =
        (if isCompound member then "(" ++ text ++ ")" else text) ∧
      operand.leaves = member.leaves ∧ ∀ truth, operand.value truth = member.value truth := by
  have lone (alone : condition.others = []) (simple : isCompound member = false) :
      ∃ operand : Operand, operand.text (form.wording mapping) =
          (if isCompound member then "(" ++ text ++ ")" else text) ∧
        operand.leaves = member.leaves ∧ ∀ truth, operand.value truth = member.value truth := by
    have single := contributes_single writes alone .and
    refine ⟨condition.first, ?_, by simpa using single.leaves, fun truth => ?_⟩
    · rw [simple]
      exact single.text
    · simpa using single.value truth
  cases inner with
  | leaf | negation => exact lone fits rfl
  | joined own members several each =>
    have compound : isCompound (.group own.kind members) = true := by
      simp only [isCompound, decide_eq_true_eq]
      omega
    refine ⟨condition.enclosed, ?_, ?_, fun truth => ?_⟩
    · simp [compound, writes.text]
    · simp [writes.leaves]
    · simp [writes.value truth]

/-- What is known of a tree once its text is there. -/
def Written (form : QueryForm) (mapping : SourceMapping) (tree : Tree) : Prop :=
  ∀ text, form.condition mapping tree = .ok text →
    text ≠ "" ∧ ∃ condition, form.Writes mapping tree text condition ∧ condition.Fits tree

/-- The operands that the members of a group contribute to its level, member by member,
with what the renderer puts there. -/
structure ContributesAll (form : QueryForm) (mapping : SourceMapping) (connective : Connective)
    (members : List Tree) (parts : List String) (groups : List (List Operand)) : Prop where
  visible : ∀ part ∈ parts, part ≠ ""
  length : groups.length = members.length
  some : ∀ group ∈ groups, group ≠ []
  texts : parts = groups.map fun group => join (form.separator connective)
    (group.map (Operand.text (form.wording mapping)))
  leaves : groups.flatten.flatMap Operand.leaves = members.flatMap Tree.leaves
  clauses : ∀ leaf ∈ members.flatMap Tree.leaves,
    form.leaf mapping leaf = .ok (form.clause mapping leaf)
  values : ∀ truth, groups.map (fun group => connective.valueOf (group.map (Operand.value truth))) =
    members.map (Tree.value truth)

/-- One more member in front. -/
theorem ContributesAll.cons {connective : Connective} {text part : String}
    {operands : List Operand} (writes : form.Writes mapping member text condition)
    (visible : part ≠ "") (contributes : Contributes form mapping connective member part operands)
    {groups : List (List Operand)}
    (all : form.ContributesAll mapping connective members parts groups) :
    form.ContributesAll mapping connective (member :: members) (part :: parts)
      (operands :: groups) where
  visible := List.forall_mem_cons.mpr ⟨visible, all.visible⟩
  length := by rw [List.length_cons, List.length_cons, all.length]
  some := List.forall_mem_cons.mpr ⟨contributes.some, all.some⟩
  texts := by rw [List.map_cons, contributes.text, ← all.texts]
  leaves := by
    rw [List.flatten_cons, List.flatMap_append, List.flatMap_cons, contributes.leaves, all.leaves]
  clauses := by
    rw [List.flatMap_cons, List.forall_mem_append]
    exact ⟨writes.clauses, all.clauses⟩
  values truth := by
    rw [List.map_cons, List.map_cons, contributes.value truth, all.values truth]

/-- The members of a group each contribute operands to its level, and none is left
out, since the text of a member is never empty. -/
theorem conditions_contribute (connective : Connective) (inner : ∀ member ∈ members, member.Inner)
    (written : ∀ member ∈ members, form.Written mapping member)
    (rendered : form.conditions mapping connective.kind members = .ok parts) :
    ∃ groups, form.ContributesAll mapping connective members parts groups := by
  induction members generalizing parts with
  | nil =>
    rw [conditions] at rendered
    obtain rfl : [] = parts := Except.ok.inj rendered
    exact ⟨[], by simp, rfl, by simp, rfl, rfl, by simp, fun _ => rfl⟩
  | cons member others ih =>
    rw [List.forall_mem_cons] at inner written
    rw [conditions] at rendered
    obtain ⟨text, memberRendered, rendered⟩ := exists_of_bind rendered
    obtain ⟨rest, othersRendered, rendered⟩ := exists_of_bind rendered
    obtain ⟨visible, condition, writes, fits⟩ := written.1 text memberRendered
    obtain ⟨operands, contributes⟩ := contributes_member writes fits inner.1 connective
    obtain ⟨groups, all⟩ := ih inner.2 written.2 othersRendered
    have first : (if needsParentheses connective.kind member then "(" ++ text ++ ")"
        else text) :: rest = parts := by
      simp only [beq_iff_eq, visible, ↓reduceIte] at rendered
      split at rendered
      · next wrapped => simpa [wrapped] using Except.ok.inj rendered
      · next bare => simpa [bare] using Except.ok.inj rendered
    have partVisible : (if needsParentheses connective.kind member then "(" ++ text ++ ")"
        else text) ≠ "" := by
      split <;> simp [String.append_eq_empty_iff, visible]
    exact ⟨operands :: groups, first ▸ .cons writes partVisible contributes all⟩

/-- The text of a group is a condition over all that its members contribute. -/
theorem ContributesAll.writes {connective : Connective} {groups : List (List Operand)}
    (all : form.ContributesAll mapping connective members parts groups) (several : members ≠ []) :
    join (form.separator connective) parts ≠ "" ∧ ∃ condition,
      form.Writes mapping (.group connective.kind members) (join (form.separator connective) parts)
        condition ∧ condition.connective = connective := by
  have groupsSome : groups ≠ [] := by
    rintro rfl
    exact several (List.length_eq_zero_iff.mp all.length.symm)
  obtain ⟨group, remaining, rfl⟩ := List.exists_cons_of_ne_nil groupsSome
  obtain ⟨first, others, rfl⟩ := List.exists_cons_of_ne_nil (all.some group List.mem_cons_self)
  refine ⟨?_, ⟨connective, first, others ++ remaining.flatten⟩, ⟨?_, ?_, ?_, ?_⟩, rfl⟩
  · rw [all.texts, List.map_cons]
    exact join_ne_empty _ _ _ (all.visible _ (by simp [all.texts]))
  · rw [all.texts, text_eq_join]
    have flat := join_flatten (form.separator connective)
      (((first :: others) :: remaining).map (List.map (Operand.text (form.wording mapping))))
      (by simpa using fun group belongs => all.some group (by simp [belongs]))
    simpa [Infix.operands, Function.comp_def] using flat.symm
  · simpa [Infix.leaves, Infix.operands] using all.leaves
  · simpa using all.clauses
  · intro truth
    have flat := connective.valueOf_flatten
      (((first :: others) :: remaining).map (List.map (Operand.value truth)))
    rw [List.map_map, Function.comp_def, all.values truth] at flat
    rw [Tree.value_kind, ← flat]
    simp [Infix.value, Infix.operands]

/-- Every tree of the compiled shape whose clauses are texts is written as a condition
with its value. The induction follows the shape: a leaf is its clause, a negation puts
its word in front of one operand, and a group joins what its members contribute. -/
theorem written_of_inner {tree : Tree} (inner : tree.Inner)
    (clauses : ∀ leaf ∈ tree.leaves, form.leaf mapping leaf ≠ .ok "") :
    form.Written mapping tree := by
  induction inner with
  | leaf content =>
    intro text rendered
    rw [condition] at rendered
    have clause : form.clause mapping content = text := by
      simp [QueryForm.clause, rendered, Except.toOption]
    refine ⟨?_, .ofOperand (.clause content), ⟨clause, rfl, ?_, ?_⟩, rfl⟩
    · rintro rfl
      exact clauses content (by simp) rendered
    · intro leaf belongs
      obtain rfl : leaf = content := by simpa using belongs
      rw [rendered, clause]
    · intro truth
      simp [Operand.value]
  | negation member inner ih =>
    intro text rendered
    rw [condition] at rendered
    obtain ⟨body, memberRendered, rendered⟩ := exists_of_bind rendered
    have memberClauses : ∀ leaf ∈ member.leaves, form.leaf mapping leaf ≠ .ok "" := by
      simpa using clauses
    obtain ⟨_, condition, writes, fits⟩ := ih memberClauses body memberRendered
    obtain ⟨operand, operandText, leaves, value⟩ := exists_operand writes fits inner
    obtain rfl : form.notWord ++ " " ++
        (if isCompound member then "(" ++ body ++ ")" else body) = text := Except.ok.inj rendered
    refine ⟨?_, .ofOperand (.negated operand), ⟨?_, ?_, ?_, ?_⟩, rfl⟩
    · simp [String.append_eq_empty_iff]
    · rw [← operandText]
      rfl
    · simp [Operand.leaves, leaves]
    · intro leaf belongs
      exact writes.clauses leaf (by simpa using belongs)
    · intro truth
      simp [Operand.value, value truth]
  | joined connective members several each ih =>
    intro text rendered
    rw [condition_joined] at rendered
    obtain ⟨parts, partsRendered, rendered⟩ := exists_of_bind rendered
    obtain rfl : join (form.separator connective) parts = text := Except.ok.inj rendered
    have written : ∀ member ∈ members, form.Written mapping member := by
      intro member belongs
      apply ih member belongs
      intro leaf own
      exact clauses leaf (by simpa using ⟨member, belongs, own⟩)
    obtain ⟨groups, all⟩ := conditions_contribute connective each written partsRendered
    have some : members ≠ [] := List.ne_nil_of_length_pos (by omega)
    obtain ⟨visible, condition, writes, same⟩ := all.writes some
    refine ⟨visible, condition, writes, ?_⟩
    cases connective <;> exact same

/-- The members of a group can be written if each of them can. -/
theorem exists_conditions (form : QueryForm) (mapping : SourceMapping) (kind : GroupKind)
    (members : List Tree)
    (each : ∀ member ∈ members, ∃ text, form.condition mapping member = .ok text) :
    ∃ parts, form.conditions mapping kind members = .ok parts := by
  induction members with
  | nil => exact ⟨[], by rw [conditions]⟩
  | cons member others ih =>
    obtain ⟨text, rendered⟩ := each member List.mem_cons_self
    obtain ⟨parts, othersRendered⟩ :=
      ih fun other belongs => each other (List.mem_cons_of_mem _ belongs)
    simp only [conditions, rendered, othersRendered, bind, Except.bind, pure, Except.pure]
    split
    · exact ⟨parts, rfl⟩
    · split
      · exact ⟨_, rfl⟩
      · exact ⟨_, rfl⟩

/-- A tree of the compiled shape can be written if its leaves can. -/
theorem exists_condition {tree : Tree} (inner : tree.Inner)
    (clauses : ∀ leaf ∈ tree.leaves, ∃ text, form.leaf mapping leaf = .ok text) :
    ∃ text, form.condition mapping tree = .ok text := by
  induction inner with
  | leaf content =>
    rw [condition]
    exact clauses content (by simp)
  | negation member inner ih =>
    obtain ⟨text, rendered⟩ := ih (by simpa using clauses)
    rw [condition, rendered]
    exact ⟨_, rfl⟩
  | joined connective members several each ih =>
    obtain ⟨parts, rendered⟩ := form.exists_conditions mapping connective.kind members <| by
      intro member belongs
      refine ih member belongs fun leaf own => clauses leaf ?_
      rw [Tree.leaves_group]
      exact List.mem_flatMap.mpr ⟨member, belongs, own⟩
    rw [condition_joined, rendered]
    exact ⟨_, rfl⟩

/-- The group around a lone leaf at the root is written as the leaf. -/
theorem condition_ofScope (form : QueryForm) (mapping : SourceMapping) (inner : Tree) :
    form.condition mapping (Tree.ofScope (some inner)) = form.condition mapping inner := by
  cases inner with
  | leaf => simp only [Tree.ofScope, condition]
  | group => rfl

end QueryForm

end Detection

import Detection.Proofs.Compilation
import Detection.Proofs.SigmaDraft

/-!
# Conditions as Sigma rules

Writing a tree adds blocks to a draft and gives a condition over their names. Every part
of the writer is described in the same way: the blocks that it adds have the names of an
expression, in their order, and with those blocks the expression asks what the tree asks.

Where a condition is put next to others it stands between parentheses if there is a blank
in it. A text without one is a name, and a joined condition always has one.
-/
namespace Detection.Sigma

open Text

variable {tree : Tree} {before after : Draft} {members : List Tree} {text : String}
  {expression : Expression}

/-- A field has at least one name on a platform. -/
theorem names_ne_nil {naming : FieldNaming} {mapping : SourceMapping} {field : Field}
    {names : List String} (named : naming.names mapping field = .ok names) : names ≠ [] := by
  rw [FieldNaming.names] at named
  split at named
  · next own =>
    cases named
    simpa using own
  · split at named
    · cases named
    · cases named
      split
      · simp
      · next default => simpa using default

/-- One map for each name of a field, where a single map needs no list. -/
theorem holds_maps {entries : List Entry} (some : entries ≠ []) :
    BlockContent.Keyed (if entries.length > 1 then .any entries else .all entries) ∧
    ∀ truth, BlockContent.holds truth (if entries.length > 1 then .any entries else .all entries) =
      entries.any (Entry.holds truth) := by
  match entries with
  | [] => contradiction
  | [entry] => exact ⟨by simp [BlockContent.Keyed], by simp [BlockContent.holds]⟩
  | first :: second :: others => exact ⟨by simp [BlockContent.Keyed], by simp [BlockContent.holds]⟩

section

variable {naming : FieldNaming} {mapping : SourceMapping}

/-- A leaf becomes a block of its own, behind NOT if its operator is a negation. -/
theorem writeLeaf_adds {leaf : Leaf} (sayable : Sayable naming mapping leaf)
    (valid : before.Valid) (done : (writeLeaf naming mapping leaf).run before = .ok (text, after)) :
    ∃ expression, Written 3 text expression ∧
      Adds before after [expression] fun truth => [leafHolds naming mapping truth leaf] := by
  cases leaf with
  | keyword =>
    rw [writeLeaf] at done
    obtain ⟨item, itemFormed, done⟩ := run_lift_bind done
    have asks := any_keywordItem (orDefect_ok itemFormed)
    obtain ⟨written, adds⟩ := newKeywords_adds valid done
    refine ⟨.name text, written, ?_⟩
    simpa [leafHolds, asks, Item.anyOf] using adds
  | comparison field operator value =>
    rw [writeLeaf] at done
    obtain ⟨names, named, done⟩ := run_lift_bind done
    obtain ⟨entries, built, done⟩ := run_lift_bind done
    obtain ⟨name, rfl, newBlock⟩ := run_bind_pure done
    obtain ⟨listed, bare⟩ := sayable
    have each := entriesFor_holds (bare names named) (positive_mem listed) (orDefect_ok built)
    have some : entries ≠ [] := by
      rintro rfl
      exact names_ne_nil named (by simpa using (each fun _ => false).symm)
    obtain ⟨keyed, holds⟩ := holds_maps some
    obtain ⟨written, adds⟩ := newSelection_adds valid keyed newBlock
    have found : ∀ truth, entries.any (Entry.holds truth) =
        names.any fun name => compares truth name ((positive? operator).getD operator) value := by
      intro truth
      have same := congrArg (List.any · id) (each truth)
      simpa [Function.comp_def] using same
    cases positive : positive? operator with
    | none =>
      refine ⟨.name name, written, ?_⟩
      simpa [leafHolds, named, Except.toOption, positive, holds, found] using adds
    | some =>
      refine ⟨.not (.name name), written.not, ?_⟩
      simpa [leafHolds, named, Except.toOption, positive, holds, found] using adds.negated

/-- An OR of words. -/
theorem eq_of_keywords {words : List (Operator × Value × Wildcards)}
    (found : keywords? members = some words) :
    members = words.map fun (operator, value, wildcards) =>
      .leaf (.keyword operator value wildcards) := by
  replace found : members.mapM keyword? = some words := (Option.ite_none_left_eq_some.mp found).2
  induction members generalizing words with
  | nil =>
    obtain rfl : [] = words := Option.some.inj found
    rfl
  | cons member others ih =>
    rw [List.mapM_cons] at found
    obtain ⟨word, first, found⟩ := Option.bind_eq_some_iff.mp found
    obtain ⟨rest, restFound, found⟩ := Option.bind_eq_some_iff.mp found
    obtain rfl : word :: rest = words := Option.some.inj found
    rw [List.map_cons, ← ih restFound]
    match member with
    | .leaf (.keyword operator value wildcards) =>
      obtain rfl : (operator, value, wildcards) = word := Option.some.inj first
      rfl

/-- The forms of several words ask for one of the words. -/
theorem anyOf_keywordItems {words : List (Operator × Value × Wildcards)} {items : List Item}
    (formed : (words.mapM fun (operator, value, wildcards) =>
      (liftM (Except.orDefect (keywordItem operator value wildcards) : Except RenderError Item) :
        Writing Item)).run before = .ok (items, after)) :
    before = after ∧ ∀ truth, Item.anyOf (fun item => truth (.word item)) items =
      words.any fun (operator, value, wildcards) => searches truth operator wildcards value := by
  induction words generalizing items with
  | nil =>
    obtain ⟨rfl, rfl⟩ := run_pure formed
    exact ⟨rfl, fun _ => rfl⟩
  | cons word others ih =>
    rw [List.mapM_cons] at formed
    obtain ⟨item, itemFormed, formed⟩ := run_lift_bind formed
    obtain ⟨rest, rfl, restFormed⟩ := run_bind_pure formed
    obtain ⟨rfl, tail⟩ := ih restFormed
    refine ⟨rfl, fun truth => ?_⟩
    rw [Item.anyOf, any_keywordItem (orDefect_ok itemFormed) truth, tail truth, List.any_cons]

/-- An OR that is merged becomes a single block. -/
theorem mergedOr_adds
    (sayable : ∀ leaf ∈ members.flatMap Tree.leaves, Sayable naming mapping leaf)
    (valid : before.Valid) {merged : Option String}
    (done : (mergedOr? naming mapping members).run before = .ok (merged, after)) :
    (merged = none ∧ before = after) ∨
    ∃ name, merged = some name ∧ Written 3 name (.name name) ∧
      Adds before after [.name name]
        fun truth => [members.any (Tree.value (leafHolds naming mapping truth))] := by
  rw [mergedOr?] at done
  split at done
  · next words found =>
    obtain ⟨items, draft, formed, done⟩ := run_bind done
    obtain ⟨rfl, asks⟩ := anyOf_keywordItems formed
    obtain ⟨name, rfl, newBlock⟩ := run_bind_pure done
    obtain ⟨written, adds⟩ := newKeywords_adds valid newBlock
    refine .inr ⟨name, rfl, written, ?_⟩
    rw [eq_of_keywords found]
    simpa [asks, Function.comp_def, leafHolds] using adds
  · obtain ⟨entry, built, done⟩ := run_lift_bind done
    cases entry with
    | none =>
      obtain ⟨rfl, rfl⟩ := run_pure done
      exact .inl ⟨rfl, rfl⟩
    | some entry =>
      obtain ⟨name, rfl, newBlock⟩ := run_bind_pure done
      have keyed : (BlockContent.all [entry]).Keyed := by simp [BlockContent.Keyed]
      obtain ⟨written, adds⟩ := newSelection_adds valid keyed newBlock
      refine .inr ⟨name, rfl, written, ?_⟩
      simpa [BlockContent.holds, entryOfAny_holds sayable built] using adds

/-- What is written for a tree is a factor, or else a joined condition with a blank in
it. -/
def Renders (tree : Tree) (text : String) (expression : Expression) : Prop :=
  Written 3 text expression ∨
    isJoined tree = true ∧ ' ' ∈ text.toList ∧ Written 1 text expression

theorem Renders.written (renders : Renders tree text expression) : Written 1 text expression := by
  rcases renders with factor | ⟨_, _, condition⟩
  · exact factor.loosen
  · exact condition

/-- Parentheses make a factor of what is written for a tree. -/
theorem Renders.parenthesized (renders : Renders tree text expression) :
    Written 3 (parenthesized text) expression := by
  rw [Sigma.parenthesized]
  rcases renders with factor | ⟨_, blank, condition⟩
  · split
    · exact factor.loosen.enclosed
    · exact factor
  · have contained : text.toList.contains ' ' = true := by simpa using blank
    rw [contained]
    exact condition.enclosed

/-- A member of a group is put there as a factor. -/
theorem Renders.factor (renders : Renders tree text expression) :
    Written 3 (if isJoined tree then Sigma.parenthesized text else text) expression := by
  cases joined : isJoined tree with
  | true => exact renders.parenthesized
  | false =>
    rcases renders with factor | ⟨same, _⟩
    · exact factor
    · exact absurd (joined.symm.trans same) (by decide)

/-- What is known of a tree once it is written. -/
def Writable (naming : FieldNaming) (mapping : SourceMapping) (tree : Tree) : Prop :=
  ∀ before text after, before.Valid →
    (writeTree naming mapping tree).run before = .ok (text, after) →
    ∃ expression, Renders tree text expression ∧
      Adds before after [expression] fun truth => [tree.value (leafHolds naming mapping truth)]

/-- Members that a common block holds are as if they were not there. -/
theorem writeMembers_remaining (held : List Bool) (members : List Tree) :
    writeMembers naming mapping held members =
      writeMembers naming mapping [] (remaining held members) := by
  induction members generalizing held with
  | nil => simp only [remaining, writeMembers]
  | cons member others ih =>
    rw [writeMembers, remaining]
    split
    · exact ih held.tail
    · rw [writeMembers, ih held.tail]
      rfl

/-- The members of a group are written as factors, and none is left out. -/
theorem writeMembers_adds (writable : ∀ member ∈ members, Writable naming mapping member)
    (valid : before.Valid) {parts : List String}
    (done : (writeMembers naming mapping [] members).run before = .ok (parts, after)) :
    ∃ expressions, List.Forall₂ (Written 3) parts expressions ∧
      Adds before after expressions
        fun truth => members.map (Tree.value (leafHolds naming mapping truth)) := by
  induction members generalizing before after parts with
  | nil =>
    rw [writeMembers] at done
    obtain ⟨rfl, rfl⟩ := run_pure done
    exact ⟨[], .nil, .nothing valid⟩
  | cons member others ih =>
    rw [List.forall_mem_cons] at writable
    simp only [writeMembers, List.headD_nil, List.tail_nil, Bool.false_eq_true, ↓reduceIte] at done
    obtain ⟨text, middle, written, done⟩ := run_bind done
    obtain ⟨rest, draft, restWritten, done⟩ := run_bind done
    obtain ⟨expression, renders, adds⟩ := writable.1 before text middle valid written
    obtain ⟨expressions, factors, addsRest⟩ := ih writable.2 adds.valid restWritten
    simp only [beq_iff_eq, renders.written.ne_empty, ↓reduceIte] at done
    obtain ⟨rfl, rfl⟩ := run_pure done
    exact ⟨expression :: expressions, .cons renders.factor factors, adds.append addsRest⟩

/-- Several pieces that are joined have the blank of the separator between them. -/
theorem blank_mem_join (connective : Connective) (first second : String) (others : List String) :
    ' ' ∈ (join (" " ++ connectiveWord connective ++ " ") (first :: second :: others)).toList := by
  simp [join]

/-- Joined factors are written for any joined tree. -/
theorem renders_join (tree : Tree) (joined : isJoined tree = true) (connective : Connective)
    {parts : List String} {expressions : List Expression}
    (factors : List.Forall₂ (Written 3) parts expressions) {values : (Atom → Bool) → List Bool}
    (adds : Adds before after expressions values) (some : ∀ truth, values truth ≠ []) :
    ∃ expression, Renders tree (join (" " ++ connectiveWord connective ++ " ") parts) expression ∧
      Adds before after [expression] fun truth => [connective.valueOf (values truth)] := by
  match parts, factors with
  | [], .nil =>
    have none := adds.length fun _ => false
    exact absurd (List.length_eq_zero_iff.mp none.symm) (some _)
  | [part], .cons (b := expression) factor .nil =>
    exact ⟨expression, .inl factor, adds.joined (by simp) (by simp)⟩
  | first :: second :: others, factors =>
    obtain ⟨expression, written, names, value⟩ :=
      Written.join_factors connective factors (List.cons_ne_nil _ _)
    exact ⟨expression, .inr ⟨joined, blank_mem_join connective first second others, written⟩,
      adds.joined names value⟩

theorem writable_leaf {content : Leaf} (sayable : Sayable naming mapping content) :
    Writable naming mapping (.leaf content) := by
  intro before text after valid done
  rw [writeTree] at done
  obtain ⟨expression, written, adds⟩ := writeLeaf_adds sayable valid done
  exact ⟨expression, .inl written, adds⟩

/-- A negation is NOT in front of its member. -/
theorem writable_not {member : Tree} (writable : Writable naming mapping member) :
    Writable naming mapping (.group .not [member]) := by
  intro before text after valid done
  rw [writeTree] at done
  obtain ⟨inner, rfl, written⟩ := run_bind_pure done
  obtain ⟨expression, renders, adds⟩ := writable before inner after valid written
  refine ⟨.not expression, .inl renders.parenthesized.not, ?_⟩
  simpa using adds.negated

/-- An OR is a single block, or else its members are joined. -/
theorem writable_or (some : members ≠ [])
    (sayable : ∀ leaf ∈ members.flatMap Tree.leaves, Sayable naming mapping leaf)
    (writable : ∀ member ∈ members, Writable naming mapping member) :
    Writable naming mapping (.group .or members) := by
  intro before text after valid done
  rw [writeTree] at done
  obtain ⟨merged, draft, tried, done⟩ := run_bind done
  rcases mergedOr_adds sayable valid tried with ⟨rfl, rfl⟩ | ⟨name, rfl, written, adds⟩
  · obtain ⟨parts, rfl, written⟩ := run_bind_pure done
    obtain ⟨expressions, factors, adds⟩ := writeMembers_adds writable valid written
    obtain ⟨expression, renders, joined⟩ :=
      renders_join (.group .or members) rfl .or factors adds (by simpa using some)
    have value : ∀ truth, Connective.or.valueOf
        (members.map (Tree.value (leafHolds naming mapping truth))) =
        (Tree.group .or members).value (leafHolds naming mapping truth) :=
      fun truth => (Tree.value_kind _ .or members).symm
    refine ⟨expression, renders, ?_⟩
    simpa only [value] using joined
  · obtain ⟨rfl, rfl⟩ := run_pure done
    refine ⟨.name name, .inl written, ?_⟩
    simpa using adds

/-- The common block of an AND, which is left out if no member goes into it. -/
def commonBlock (entries : List Entry) : Writing (List String) :=
  if entries.isEmpty then pure [] else do
    let name ← newSelection (.all entries)
    pure [name]

/-- An AND is a common block joined with the members that it does not hold. -/
theorem writeTree_and (members : List Tree) :
    writeTree naming mapping (.group .and members) = (do
      let shared ← (liftM (sharedEntries naming mapping [] members) :
        Writing (List Entry × List Bool))
      let common ← commonBlock shared.1
      let parts ← writeMembers naming mapping [] (remaining shared.2 members)
      return join " and " (common ++ parts)) := by
  rw [writeTree]
  congr 1
  funext ⟨entries, held⟩
  simp only [commonBlock, writeMembers_remaining held members]
  split <;> rfl

/-- A common block is asked by its name. -/
theorem commonBlock_adds {entries : List Entry} (distinct : (entries.map Entry.key).Nodup)
    (valid : before.Valid) {common : List String}
    (done : (commonBlock entries).run before = .ok (common, after)) :
    ∃ expressions, List.Forall₂ (Written 3) common expressions ∧
      Adds before after expressions
        fun truth => if entries.isEmpty then [] else [entries.all (Entry.holds truth)] := by
  rw [commonBlock] at done
  split at done
  · next none =>
    obtain ⟨rfl, rfl⟩ := run_pure done
    simp only [none, ↓reduceIte]
    exact ⟨[], .nil, .nothing valid⟩
  · next some =>
    obtain ⟨name, rfl, newBlock⟩ := run_bind_pure done
    have keyed : (BlockContent.all entries).Keyed := distinct
    obtain ⟨written, adds⟩ := newSelection_adds valid keyed newBlock
    simp only [some]
    exact ⟨[.name name], .cons written .nil, adds⟩

/-- An AND is written. Its value is that of the common block together with those of the
members that stay, and there is at least one of either. -/
theorem writable_and (some : members ≠ [])
    (sayable : ∀ leaf ∈ members.flatMap Tree.leaves, Sayable naming mapping leaf)
    (writable : ∀ member ∈ members, Writable naming mapping member) :
    Writable naming mapping (.group .and members) := by
  intro before text after valid done
  rw [writeTree_and] at done
  obtain ⟨⟨entries, held⟩, built, done⟩ := run_lift_bind done
  obtain ⟨common, middle, shared, done⟩ := run_bind done
  obtain ⟨parts, rfl, written⟩ := run_bind_pure done
  have shares := sharedEntries_shares sayable built
  obtain ⟨expressions, factors, adds⟩ := commonBlock_adds shares.distinct valid shared
  obtain ⟨others, otherFactors, addsOthers⟩ := writeMembers_adds
    (fun member stays => writable member (mem_of_mem_remaining stays)) adds.valid written
  have someValue : ∀ truth, (if entries.isEmpty then [] else [entries.all (Entry.holds truth)]) ++
      (remaining held members).map (Tree.value (leafHolds naming mapping truth)) ≠ [] := by
    intro truth none
    obtain ⟨noCommon, noOther⟩ := List.append_eq_nil_iff.mp none
    have noEntry : entries = [] := by simpa using noCommon
    have count := shares.count
    rw [noEntry, List.map_eq_nil_iff.mp noOther] at count
    exact some (List.length_eq_zero_iff.mp count.symm)
  obtain ⟨expression, renders, joined⟩ := renders_join (.group .and members) rfl .and
    (List.rel_append factors otherFactors) (adds.append addsOthers) someValue
  refine ⟨expression, renders, ?_⟩
  have value : ∀ truth, Connective.and.valueOf
      ((if entries.isEmpty then [] else [entries.all (Entry.holds truth)]) ++
        (remaining held members).map (Tree.value (leafHolds naming mapping truth))) =
      (Tree.group .and members).value (leafHolds naming mapping truth) := by
    intro truth
    have block : Connective.and.valueOf
        (if entries.isEmpty then [] else [entries.all (Entry.holds truth)]) =
        entries.all (Entry.holds truth) := by
      cases entries <;> simp [Connective.valueOf]
    have rest : Connective.and.valueOf
        ((remaining held members).map (Tree.value (leafHolds naming mapping truth))) =
        (Tree.group .and (remaining held members)).value (leafHolds naming mapping truth) :=
      (Tree.value_kind _ .and _).symm
    rw [Connective.valueOf_append, block, rest, Tree.value_and, Tree.value_and,
      shares.value truth]
    rfl
  simpa only [value] using joined

/-- A tree of the compiled shape is written. -/
theorem Writable.of_inner (inner : tree.Inner)
    (sayable : ∀ leaf ∈ tree.leaves, Sayable naming mapping leaf) :
    Writable naming mapping tree := by
  induction inner with
  | leaf content => exact writable_leaf (sayable content (by simp))
  | negation member inner ih =>
    exact writable_not (ih (by simpa using sayable))
  | joined connective members several each ih =>
    have some : members ≠ [] := by
      rintro rfl
      simp at several
    rw [Tree.leaves_group] at sayable
    have writable : ∀ member ∈ members, Writable naming mapping member := fun member belongs =>
      ih member belongs fun leaf inside =>
        sayable leaf (List.mem_flatMap.mpr ⟨member, belongs, inside⟩)
    cases connective with
    | and => exact writable_and some sayable writable
    | or => exact writable_or some sayable writable

/-- A tree in place of another one: it has the compiled shape, the same leaves and the
same value. -/
structure Replaces (tree original : Tree) : Prop where
  inner : tree.Inner
  leaves : tree.leaves = original.leaves
  value : ∀ truth, tree.value truth = original.value truth

/-- What a tree contributes to a group around it: itself or its members. -/
structure Lifts (connective : Connective) (lifted : List Tree) (tree : Tree) : Prop where
  some : lifted ≠ []
  inner : ∀ member ∈ lifted, member.Inner
  leaves : lifted.flatMap Tree.leaves = tree.leaves
  value : ∀ truth, connective.valueOf (lifted.map (Tree.value truth)) = tree.value truth

theorem Lifts.itself (connective : Connective) (inner : tree.Inner) :
    Lifts connective [tree] tree :=
  ⟨List.cons_ne_nil _ _, by simpa using inner, by simp, by simp⟩

/-- A group of the same kind contributes its members. -/
theorem liftMembers_lifts (connective : Connective) (inner : tree.Inner) :
    Lifts connective (liftMembers connective.kind tree) tree := by
  cases inner with
  | leaf content => exact .itself connective (.leaf content)
  | negation member inner =>
    have other : liftMembers connective.kind (.group .not [member]) = [.group .not [member]] := by
      cases connective <;> rfl
    rw [other]
    exact .itself connective (.negation member inner)
  | joined own members several each =>
    by_cases same : own = connective
    · subst same
      have lifted : liftMembers own.kind (.group own.kind members) = members := by
        cases own <;> rfl
      rw [lifted]
      refine ⟨?_, each, ?_, fun truth => ?_⟩
      · rintro rfl
        simp at several
      · rw [Tree.leaves_group]
      · rw [Tree.value_kind]
    · have other : liftMembers connective.kind (.group own.kind members) =
          [.group own.kind members] := by
        cases own <;> cases connective <;> simp_all [liftMembers, Connective.kind]
      rw [other]
      exact .itself connective (.joined own members several each)

/-- The members of a flattened group, which are at least as many. -/
theorem flattenMembers_replaces (connective : Connective)
    (each : ∀ member ∈ members, Replaces (flatten member) member) :
    (∀ member ∈ flattenMembers connective.kind members, member.Inner) ∧
    members.length ≤ (flattenMembers connective.kind members).length ∧
    (flattenMembers connective.kind members).flatMap Tree.leaves = members.flatMap Tree.leaves ∧
    ∀ truth, connective.valueOf ((flattenMembers connective.kind members).map (Tree.value truth)) =
      connective.valueOf (members.map (Tree.value truth)) := by
  induction members with
  | nil => simp [flattenMembers]
  | cons member others ih =>
    rw [List.forall_mem_cons] at each
    obtain ⟨inner, length, leaves, value⟩ := ih each.2
    have lifts := liftMembers_lifts connective each.1.inner
    rw [flattenMembers]
    refine ⟨?_, ?_, ?_, fun truth => ?_⟩
    · rw [List.forall_mem_append]
      exact ⟨lifts.inner, inner⟩
    · have some := List.length_pos_iff.mpr lifts.some
      rw [List.length_append, List.length_cons]
      omega
    · rw [List.flatMap_append, List.flatMap_cons, lifts.leaves, leaves, each.1.leaves]
    · rw [List.map_append, Connective.valueOf_append, lifts.value, value, each.1.value,
        List.map_cons, Connective.valueOf_cons]

theorem flatten_replaces (inner : tree.Inner) : Replaces (flatten tree) tree := by
  induction inner with
  | leaf content => exact ⟨.leaf content, rfl, fun _ => rfl⟩
  | negation member inner ih =>
    have lone : flatten (.group .not [member]) = .group .not [flatten member] := by
      cases flat : flatten member <;> simp [flatten, flattenMembers, liftMembers, flat]
    rw [lone]
    refine ⟨.negation _ ih.inner, ?_, fun truth => ?_⟩
    · simpa using ih.leaves
    · rw [Tree.value_not, Tree.value_not, ih.value]
  | joined connective members several each ih =>
    obtain ⟨inner, length, leaves, value⟩ := flattenMembers_replaces connective ih
    rw [flatten]
    refine ⟨.joined connective _ (Nat.le_trans several length) inner, ?_, fun truth => ?_⟩
    · rw [Tree.leaves_group, Tree.leaves_group, leaves]
    · rw [Tree.value_kind, Tree.value_kind, value]

/-- The group around a lone leaf at the root is not written. -/
theorem writeTree_ofScope (tree : Tree) :
    writeTree naming mapping (flatten (Tree.ofScope (some tree))) =
      writeTree naming mapping (flatten tree) := by
  cases tree with
  | leaf => simp [Tree.ofScope, flatten, flattenMembers, liftMembers, writeTree]
  | group => rfl

/-- A compiled condition is written as an expression, with the blocks that are added for it. -/
theorem writeCondition_adds {tokens : List Token} (compiled : compile tokens = .ok tree)
    (some : tree.leaves ≠ []) (sayable : ∀ leaf ∈ tree.leaves, Sayable naming mapping leaf)
    {blocks : List Block} (rendered : writeCondition naming mapping tree = .ok (text, blocks)) :
    ∃ expression draft, Written 1 text expression ∧ draft.blocks = blocks ∧
      Adds {} draft [expression] fun truth => [tree.value (leafHolds naming mapping truth)] := by
  obtain ⟨scope, rfl, ⟨rfl, _⟩ | ⟨inner, rfl, shape, _⟩⟩ := compile_scope compiled
  · exact absurd rfl some
  · have flat := flatten_replaces shape
    rw [Tree.leaves_ofScope, Option.map_some, Option.getD_some, ← flat.leaves] at sayable
    obtain ⟨⟨expressionText, draft⟩, written, done⟩ := exists_of_bind rendered
    obtain ⟨rfl, rfl⟩ := Prod.mk.inj (Except.ok.inj done)
    rw [writeTree_ofScope] at written
    obtain ⟨expression, renders, adds⟩ := Writable.of_inner flat.inner sayable {} _ draft
      ⟨by simp, by simp, by simp⟩ written
    refine ⟨expression, draft, renders.written, rfl, ?_⟩
    simpa [flat.value, Tree.value_ofScope] using adds

end

/-- A compiled condition with leaves that a rule can say is written as blocks and an
expression over their names that says the same. The text has one reading by the grammar
in which NOT binds most tightly and OR least, which is also the order into which a reader
of rules brings it. The names in it are those of the blocks, each once and in their
order; no map has a key twice; and for every event the expression holds of the blocks if
and only if the condition holds of its leaves. -/
theorem writeCondition_says_tree (naming : FieldNaming) (mapping : SourceMapping)
    (tokens : List Token) (tree : Tree) (compiled : compile tokens = .ok tree)
    (some : tree.leaves ≠ []) (sayable : ∀ leaf ∈ tree.leaves, Sayable naming mapping leaf)
    (text : String) (blocks : List Block)
    (rendered : writeCondition naming mapping tree = .ok (text, blocks)) :
    ∃ expression, Reads 1 (terms text) expression ∧
      (∀ other, Reads 1 (terms text) other → other = expression) ∧
      postfixFrom [] (terms text) = .ok expression.steps ∧
      expression.names = blocks.map Block.name ∧ (blocks.map Block.name).Nodup ∧
      (∀ block ∈ blocks, block.content.Keyed) ∧
      ∀ truth, expression.value (blockHolds truth blocks) =
        tree.value (leafHolds naming mapping truth) := by
  obtain ⟨expression, draft, written, rfl, adds⟩ :=
    writeCondition_adds compiled some sayable rendered
  have reads : Reads 1 (terms text) expression := written.reads_terms
  obtain ⟨added, blocks, names⟩ := adds.blocks
  refine ⟨expression, reads, fun other otherReads => otherReads.unique reads, reads.postfixFrom,
    ?_, adds.valid.distinct, adds.valid.keyed, fun truth => ?_⟩
  · simpa [blocks] using names.symm
  · simpa using List.singleton_inj.mp (adds.value truth [])

/-- The theorem at `(a = x OR a = y) AND NOT (b ≠ z OR w)`, where the first two leaves
share a list, the third one has two names on the target and the last one is a word. -/
theorem writeCondition_says_tree_merged :
    let mapping : SourceMapping :=
      ⟨"default", none, { forward := [("a", ["A"]), ("b", ["B", "C"])] }⟩
    let naming : FieldNaming := ⟨"sigma", ⟨"sigma", [], mapping⟩, false⟩
    let field (name : String) (operator : Operator) (value : String) : Leaf :=
      .comparison { name } operator (.text value) {}
    let first := field "a" .eq "x"
    let second := field "a" .eq "y"
    let third := field "b" .neq "z"
    let word : Leaf := .keyword .keyword (.text "w") {}
    let tree : Tree := .group .and [.group .or [.leaf first, .leaf second],
      .group .not [.group .or [.leaf third, .leaf word]]]
    let text := "selection1 and not (not selection2 or keyword1)"
    let blocks : List Block :=
      [⟨"selection1", .all [⟨"A", .list [.text "x", .text "y"]⟩]⟩,
        ⟨"selection2", .any [⟨"B", .text "z"⟩, ⟨"C", .text "z"⟩]⟩,
        ⟨"keyword1", .keywords [.text "w"]⟩]
    compile [.opening, .leaf first, .or, .leaf second, .closing, .and, .not, .opening,
      .leaf third, .or, .leaf word, .closing] = .ok tree ∧
    tree.leaves ≠ [] ∧ (∀ leaf ∈ tree.leaves, Sayable naming mapping leaf) ∧
    writeCondition naming mapping tree = .ok (text, blocks) ∧
    ∃ expression, Reads 1 (terms text) expression ∧
      (∀ other, Reads 1 (terms text) other → other = expression) ∧
      postfixFrom [] (terms text) = .ok expression.steps ∧
      expression.names = blocks.map Block.name ∧ (blocks.map Block.name).Nodup ∧
      (∀ block ∈ blocks, block.content.Keyed) ∧
      ∀ truth, expression.value (blockHolds truth blocks) =
        tree.value (leafHolds naming mapping truth) := by
  intro mapping naming field first second third word tree text blocks
  have compiled : compile [.opening, .leaf first, .or, .leaf second, .closing, .and, .not,
      .opening, .leaf third, .or, .leaf word, .closing] = .ok tree := rfl
  have some : tree.leaves ≠ [] := List.cons_ne_nil _ _
  have sayable : ∀ leaf ∈ tree.leaves, Sayable naming mapping leaf := by
    have leaves : tree.leaves = [first, second, third, word] := rfl
    have bare (name : String) (names : List String)
        (plain : ∀ name ∈ names, '|' ∉ name.toList)
        (named : naming.names mapping { name } = .ok names) :
        ∀ found, naming.names mapping { name } = .ok found → ∀ name ∈ found, '|' ∉ name.toList := by
      intro found same
      obtain rfl : names = found := Except.ok.inj (named.symm.trans same)
      exact plain
    simp only [leaves, List.forall_mem_cons, List.not_mem_nil, IsEmpty.forall_iff, implies_true,
      and_true]
    exact ⟨⟨by decide, bare "a" ["A"] (by decide) rfl⟩, ⟨by decide, bare "a" ["A"] (by decide) rfl⟩,
      ⟨by decide, bare "b" ["B", "C"] (by decide) rfl⟩, trivial⟩
  have flat : flatten tree = tree := rfl
  have written : (writeTree naming mapping tree).run {} = .ok (text, ⟨2, 1, blocks⟩) := by
    dsimp only [naming, mapping, tree, first, second, third, word, field, text, blocks]
    rfl
  have rendered : writeCondition naming mapping tree = .ok (text, blocks) := by
    rw [writeCondition, flat, written]
    rfl
  exact ⟨compiled, some, sayable, rendered,
    writeCondition_says_tree naming mapping _ tree compiled some sayable text blocks rendered⟩

end Detection.Sigma

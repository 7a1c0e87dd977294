import Detection.Proofs.QueryFragments
import Detection.Proofs.SigmaRendering

/-!
# The blocks that a condition needs

Every comparison of a condition is found in a block of the rule. If its field has one name, the
block has an entry under the key for this name, which the comparison may share with others; if it
has several names, the block offers one entry for each of them and none besides. Nor does any
block have an entry that no comparison asks for. Where every field has to be mapped, the names are
those that the mapping itself has.

Writing a tree adds blocks to a draft, and each part of the writer adds those for its own leaves.
The blocks of one part stay as they are when another part adds its own.
-/
namespace Detection.Sigma

open Text

variable {before after : Draft} {members : List Tree} {entry : Entry} {tree : Tree} {name : String}
  {blocks : List Block}

/-- The operator under which a comparison is written. A negated one stands behind NOT. -/
def plainOperator (operator : Operator) : Operator :=
  (positive? operator).getD operator

def BlockContent.entries : BlockContent → List Entry
  | .all entries | .any entries => entries
  | .keywords _ => []

/-- An entry that holds the comparison of a field with a single name, alone or beside others. -/
def Holds (name : String) (operator : Operator) (value : Value) (entry : Entry) : Prop :=
  ∃ own, entryFor name (plainOperator operator) value = .ok own ∧ own.key = entry.key ∧
    own.value.spread ⊆ entry.value.spread

/-- An entry with the values of another under the same key. -/
theorem Holds.mono {operator : Operator} {value : Value} {more : Entry}
    (holds : Holds name operator value entry) (key : entry.key = more.key)
    (within : entry.value.spread ⊆ more.value.spread) : Holds name operator value more := by
  obtain ⟨own, formed, same, values⟩ := holds
  exact ⟨own, formed, same.trans key, List.Subset.trans values within⟩

/-- A block that compares a field under some names. -/
inductive Compares (operator : Operator) (value : Value) : List String → BlockContent → Prop
  | one {name : String} {entries : List Entry} {entry : Entry} (listed : entry ∈ entries)
      (holds : Holds name operator value entry) :
      Compares operator value [name] (.all entries)
  | several {names : List String} {entries : List Entry} (many : 1 < names.length)
      (built : List.Forall₂ (fun name entry =>
        entryFor name (plainOperator operator) value = .ok entry) names entries) :
      Compares operator value names (.any entries)

/-- A key for a comparison under one of the names that the mapping has for its field. -/
def Asks (mapping : SourceMapping) (leaves : List Leaf) (key : String) : Prop :=
  ∃ field operator value wildcards, Leaf.comparison field operator value wildcards ∈ leaves ∧
    ∃ name ∈ mapping.names field, ∃ own,
      entryFor name (plainOperator operator) value = .ok own ∧ own.key = key

theorem Asks.mono {mapping : SourceMapping} {leaves more : List Leaf} {key : String}
    (asks : Asks mapping leaves key) (within : leaves ⊆ more) : Asks mapping more key := by
  obtain ⟨field, operator, value, wildcards, listed, named⟩ := asks
  exact ⟨field, operator, value, wildcards, within listed, named⟩

/-- Blocks with all comparisons of some leaves, and with no keys but theirs. -/
structure Covers (mapping : SourceMapping) (leaves : List Leaf) (blocks : List Block) : Prop where
  each : ∀ field operator value wildcards,
    Leaf.comparison field operator value wildcards ∈ leaves →
      ∃ block ∈ blocks, Compares operator value (mapping.names field) block.content
  only : ∀ block ∈ blocks, ∀ entry ∈ block.content.entries, Asks mapping leaves entry.key

namespace Covers

variable {mapping : SourceMapping}

/-- Words need no comparisons. -/
theorem words {leaves : List Leaf} (words : ∀ field operator value wildcards,
      Leaf.comparison field operator value wildcards ∉ leaves)
    (bare : ∀ block ∈ blocks, block.content.entries = []) : Covers mapping leaves blocks where
  each field operator value wildcards listed := absurd listed (words field operator value wildcards)
  only block present entry listed := by
    rw [bare block present] at listed
    cases listed

/-- The blocks of two parts. -/
theorem append {first second : List Leaf} {more : List Block}
    (covers : Covers mapping first blocks) (others : Covers mapping second more) :
    Covers mapping (first ++ second) (blocks ++ more) where
  each field operator value wildcards listed := by
    rcases List.mem_append.mp listed with own | other
    · obtain ⟨block, present, compares⟩ := covers.each field operator value wildcards own
      exact ⟨block, List.mem_append_left _ present, compares⟩
    · obtain ⟨block, present, compares⟩ := others.each field operator value wildcards other
      exact ⟨block, List.mem_append_right _ present, compares⟩
  only := by
    refine List.forall_mem_append.mpr ⟨fun block present entry listed => ?_,
      fun block present entry listed => ?_⟩
    · exact (covers.only block present entry listed).mono (List.subset_append_left _ _)
    · exact (others.only block present entry listed).mono (List.subset_append_right _ _)

end Covers

/-- What a part of the writer adds to a draft: the blocks for its leaves. -/
def Extends (mapping : SourceMapping) (leaves : List Leaf) (before after : Draft) : Prop :=
  ∃ added, after.blocks = before.blocks ++ added ∧ Covers mapping leaves added

namespace Extends

variable {mapping : SourceMapping} {middle : Draft}

theorem nothing (draft : Draft) : Extends mapping [] draft draft :=
  ⟨[], by simp, .words (by simp) (by simp)⟩

/-- One part behind another. -/
theorem append {first second : List Leaf} (extends₁ : Extends mapping first before middle)
    (extends₂ : Extends mapping second middle after) :
    Extends mapping (first ++ second) before after := by
  obtain ⟨added, blocks, covers⟩ := extends₁
  obtain ⟨more, others, coversMore⟩ := extends₂
  exact ⟨added ++ more, by rw [others, blocks, List.append_assoc], covers.append coversMore⟩

end Extends

/-- A new block stands behind the others. -/
theorem blocks_newSelection {content : BlockContent}
    (done : (newSelection content).run before = .ok (name, after)) :
    after.blocks = before.blocks ++ [⟨name, content⟩] := by
  cases done
  rfl

theorem blocks_newKeywords {items : List Item}
    (done : (newKeywords items).run before = .ok (name, after)) :
    after.blocks = before.blocks ++ [⟨name, .keywords items⟩] := by
  cases done
  rfl

/-! ## Entries -/

section

variable {naming : FieldNaming} {mapping : SourceMapping}

/-- An entry that holds all comparisons of some leaves, each under the only name of its field. -/
structure Gathers (mapping : SourceMapping) (leaves : List Leaf) (entry : Entry) : Prop where
  each : ∀ field operator value wildcards,
    Leaf.comparison field operator value wildcards ∈ leaves →
      ∃ name, mapping.names field = [name] ∧ Holds name operator value entry
  asked : Asks mapping leaves entry.key

/-- The entry for a leaf. -/
theorem entryOfLeaf_gathers (strict : naming.strict = true) {leaf : Leaf}
    (built : entryOfLeaf? naming mapping leaf = .ok (some entry)) :
    Gathers mapping [leaf] entry := by
  cases leaf with
  | keyword => cases built
  | comparison field operator value wildcards =>
    simp only [entryOfLeaf?] at built
    split at built
    · cases built
    · next affirmative =>
      have plain : plainOperator operator = operator := by
        cases operator <;> simp_all [Operator.negated, plainOperator, positive?]
      obtain ⟨names, named, built⟩ := exists_of_bind built
      split at built
      · next name =>
        have own := (FieldNaming.names_strict strict named).1
        obtain ⟨found, entryBuilt, same⟩ := exists_of_bind built
        obtain rfl : found = entry := Option.some.inj (Except.ok.inj same)
        have formed : entryFor name (plainOperator operator) value = .ok found := by
          rw [plain]
          exact orDefect_ok entryBuilt
        constructor
        · intro otherField otherOperator otherValue otherWildcards listed
          obtain ⟨rfl, rfl, rfl, rfl⟩ := by simpa using listed
          exact ⟨name, own, found, formed, rfl, List.Subset.refl _⟩
        · exact ⟨field, operator, value, wildcards, List.mem_singleton_self _, name,
            by simp [own], found, formed, rfl⟩
      · cases built

/-- The values of leaves under one key. -/
theorem valuesUnder_gathers (strict : naming.strict = true) {key : String} {values : List Item}
    (built : valuesUnder? naming mapping key members = .ok (some values)) (field : Field)
    (operator : Operator) (value : Value) (wildcards : Wildcards)
    (listed : Leaf.comparison field operator value wildcards ∈ members.flatMap Tree.leaves) :
    ∃ name, mapping.names field = [name] ∧ Holds name operator value ⟨key, .list values⟩ := by
  induction members generalizing values with
  | nil => cases listed
  | cons member others ih =>
    cases member with
    | group => cases built
    | leaf =>
      rw [valuesUnder?] at built
      obtain ⟨found, leafBuilt, built⟩ := exists_of_bind built
      cases found with
      | none => cases built
      | some entry =>
        simp only at built
        split at built
        · next same =>
          obtain ⟨rest, restBuilt, built⟩ := exists_of_bind built
          obtain ⟨items, rfl, rfl⟩ := Option.map_eq_some_iff.mp (Except.ok.inj built)
          obtain rfl : entry.key = key := by simpa using same
          rcases List.mem_append.mp listed with own | other
          · obtain ⟨name, lone, holds⟩ :=
              (entryOfLeaf_gathers strict leafBuilt).each field operator value wildcards own
            exact ⟨name, lone, holds.mono rfl (List.subset_append_left _ _)⟩
          · obtain ⟨name, lone, holds⟩ := ih restBuilt other
            exact ⟨name, lone, holds.mono rfl (List.subset_append_right _ _)⟩
        · cases built

/-- The entry for an OR of comparisons that share their key. -/
theorem entryOfAny_gathers (strict : naming.strict = true)
    (built : entryOfAny? naming mapping members = .ok (some entry)) :
    Gathers mapping (members.flatMap Tree.leaves) entry := by
  match members with
  | [] => cases built
  | .group kind inner :: others => cases built
  | .leaf content :: others =>
    obtain ⟨found, leafBuilt, built⟩ := exists_of_bind built
    cases found with
    | none => cases built
    | some =>
      obtain ⟨rest, restBuilt, built⟩ := exists_of_bind built
      obtain ⟨values, rfl, rfl⟩ := Option.map_eq_some_iff.mp (Except.ok.inj built)
      have head := entryOfLeaf_gathers strict leafBuilt
      constructor
      · intro field operator value wildcards listed
        rcases List.mem_append.mp listed with own | other
        · obtain ⟨name, lone, holds⟩ := head.each field operator value wildcards own
          exact ⟨name, lone, holds.mono rfl (List.subset_append_left _ _)⟩
        · obtain ⟨name, lone, holds⟩ :=
            valuesUnder_gathers strict restBuilt field operator value wildcards other
          exact ⟨name, lone, holds.mono rfl (List.subset_append_right _ _)⟩
      · exact head.asked.mono (List.subset_append_left _ _)

/-- The entry that a member of an AND contributes. -/
theorem entryOfMember_gathers (strict : naming.strict = true) {member : Tree}
    (built : entryOfMember? naming mapping member = .ok (some entry)) :
    Gathers mapping member.leaves entry := by
  match member with
  | .leaf content => exact entryOfLeaf_gathers strict built
  | .group .or members =>
    rw [Tree.leaves_group]
    exact entryOfAny_gathers strict built
  | .group .and members => cases built
  | .group .not members => cases built
  | .group .single members => cases built

/-- The entries of a common block: a comparison of the members is in one of them, or its member is
not held by the block; and all entries are asked for. -/
structure Pools (mapping : SourceMapping) (members : List Tree) (entries : List Entry)
    (held : List Bool) : Prop where
  each : ∀ field operator value wildcards,
    Leaf.comparison field operator value wildcards ∈ members.flatMap Tree.leaves →
      Leaf.comparison field operator value wildcards ∈
        (remaining held members).flatMap Tree.leaves ∨
      ∃ name, mapping.names field = [name] ∧ ∃ entry ∈ entries, Holds name operator value entry
  only : ∀ entry ∈ entries, Asks mapping (members.flatMap Tree.leaves) entry.key

namespace Pools

variable {entries : List Entry} {held : List Bool}

/-- A member that is not held. -/
theorem stay (pools : Pools mapping members entries held) (member : Tree) :
    Pools mapping (member :: members) entries (false :: held) where
  each field operator value wildcards listed := by
    have stays : remaining (false :: held) (member :: members) =
        member :: remaining held members := rfl
    rw [stays, List.flatMap_cons, List.mem_append]
    rcases List.mem_append.mp listed with own | other
    · exact .inl (.inl own)
    · exact (pools.each field operator value wildcards other).imp_left .inr
  only entry listed := (pools.only entry listed).mono (List.subset_append_right _ _)

/-- A member that is held by its entry. -/
theorem hold (pools : Pools mapping members entries held) {member : Tree}
    (gathers : Gathers mapping member.leaves entry) :
    Pools mapping (member :: members) (entry :: entries) (true :: held) where
  each field operator value wildcards listed := by
    have leaves : remaining (true :: held) (member :: members) = remaining held members := rfl
    rw [leaves]
    rcases List.mem_append.mp listed with own | other
    · obtain ⟨name, lone, holds⟩ := gathers.each field operator value wildcards own
      exact .inr ⟨name, lone, entry, List.mem_cons_self, holds⟩
    · rcases pools.each field operator value wildcards other with stays | ⟨name, lone, pooled⟩
      · exact .inl stays
      · obtain ⟨other, listed, holds⟩ := pooled
        exact .inr ⟨name, lone, other, List.mem_cons_of_mem _ listed, holds⟩
  only := by
    refine List.forall_mem_cons.mpr ⟨gathers.asked.mono (List.subset_append_left _ _), ?_⟩
    exact fun other listed => (pools.only other listed).mono (List.subset_append_right _ _)

end Pools

/-- The members of an AND share a block. -/
theorem sharedEntries_pools (strict : naming.strict = true) {taken : List String}
    {entries : List Entry} {held : List Bool}
    (built : sharedEntries naming mapping taken members = .ok (entries, held)) :
    Pools mapping members entries held := by
  induction members generalizing taken entries held with
  | nil =>
    cases built
    exact ⟨by simp, by simp⟩
  | cons member others ih =>
    rw [sharedEntries] at built
    obtain ⟨found, memberBuilt, built⟩ := exists_of_bind built
    cases found with
    | none =>
      obtain ⟨rest, restBuilt, built⟩ := exists_of_bind built
      cases built
      exact (ih restBuilt).stay member
    | some =>
      simp only at built
      split at built
      · obtain ⟨rest, restBuilt, built⟩ := exists_of_bind built
        cases built
        exact (ih restBuilt).stay member
      · obtain ⟨rest, restBuilt, built⟩ := exists_of_bind built
        cases built
        exact (ih restBuilt).hold (entryOfMember_gathers strict memberBuilt)

/-! ## Trees -/

/-- One entry for each name of a field, in one map if there is a single name. -/
theorem compares_own {names : List String} (present : names ≠ []) {operator : Operator}
    {value : Value} {entries : List Entry}
    (formed : List.Forall₂ (fun name entry =>
      entryFor name (plainOperator operator) value = .ok entry) names entries) :
    Compares operator value names (if entries.length > 1 then .any entries else .all entries) := by
  cases formed with
  | nil => contradiction
  | @cons name entry names entries own others =>
    cases others with
    | nil => exact .one (List.mem_singleton_self entry) ⟨entry, own, rfl, List.Subset.refl _⟩
    | cons next last => exact .several (by simp) (.cons own (.cons next last))

/-- A leaf gets a block of its own. -/
theorem writeLeaf_extends (strict : naming.strict = true) {leaf : Leaf} {text : String}
    (done : (writeLeaf naming mapping leaf).run before = .ok (text, after)) :
    Extends mapping [leaf] before after := by
  cases leaf with
  | keyword =>
    rw [writeLeaf] at done
    obtain ⟨item, _, done⟩ := run_lift_bind done
    exact ⟨_, blocks_newKeywords done, .words (by simp) (by simp [BlockContent.entries])⟩
  | comparison field operator value wildcards =>
    rw [writeLeaf] at done
    obtain ⟨names, named, done⟩ := run_lift_bind done
    obtain ⟨entries, built, done⟩ := run_lift_bind done
    obtain ⟨name, rfl, newBlock⟩ := run_bind_pure done
    obtain ⟨own, present⟩ := FieldNaming.names_strict strict named
    have formed := orDefect_ok built
    refine ⟨_, blocks_newSelection newBlock, ?_, ?_⟩
    · intro otherField otherOperator otherValue otherWildcards listed
      obtain ⟨rfl, rfl, rfl, rfl⟩ := by simpa using listed
      refine ⟨_, List.mem_singleton_self _, ?_⟩
      rw [own]
      exact compares_own present (forall₂_of_mapM formed)
    · intro block inside entry listed
      obtain rfl := List.mem_singleton.mp inside
      have entryListed : entry ∈ entries := by
        dsimp only at listed
        split at listed <;> exact listed
      obtain ⟨name, named, entryFormed⟩ := exists_of_mem_mapM formed entryListed
      exact ⟨field, operator, value, wildcards, List.mem_singleton_self _, name, own ▸ named, entry,
        entryFormed, rfl⟩

/-- An OR that is merged gets a single block. -/
theorem mergedOr_extends (strict : naming.strict = true) {merged : Option String}
    (done : (mergedOr? naming mapping members).run before = .ok (merged, after)) :
    (merged = none ∧ before = after) ∨
      ((∃ name, merged = some name) ∧
        Extends mapping (members.flatMap Tree.leaves) before after) := by
  rw [mergedOr?] at done
  split at done
  · next words found =>
    obtain ⟨items, draft, formed, done⟩ := run_bind done
    obtain ⟨rfl, _⟩ := anyOf_keywordItems formed
    obtain ⟨name, rfl, newBlock⟩ := run_bind_pure done
    refine .inr ⟨⟨name, rfl⟩, _, blocks_newKeywords newBlock, .words ?_ ?_⟩
    · rw [eq_of_keywords found]
      simp
    · simp [BlockContent.entries]
  · obtain ⟨entry, built, done⟩ := run_lift_bind done
    cases entry with
    | none =>
      obtain ⟨rfl, rfl⟩ := run_pure done
      exact .inl ⟨rfl, rfl⟩
    | some entry =>
      obtain ⟨name, rfl, newBlock⟩ := run_bind_pure done
      have gathers := entryOfAny_gathers strict built
      refine .inr ⟨⟨name, rfl⟩, _, blocks_newSelection newBlock, ?_, ?_⟩
      · intro field operator value wildcards listed
        obtain ⟨own, lone, holds⟩ := gathers.each field operator value wildcards listed
        refine ⟨_, List.mem_singleton_self _, ?_⟩
        rw [lone]
        exact .one (List.mem_singleton_self entry) holds
      · intro block inside other listed
        obtain rfl := List.mem_singleton.mp inside
        obtain rfl := List.mem_singleton.mp listed
        exact gathers.asked

/-- The members of a group get their blocks one after another. -/
theorem writeMembers_extends (each : ∀ member ∈ members, ∀ before text after,
      (writeTree naming mapping member).run before = .ok (text, after) →
        Extends mapping member.leaves before after) {parts : List String}
    (done : (writeMembers naming mapping [] members).run before = .ok (parts, after)) :
    Extends mapping (members.flatMap Tree.leaves) before after := by
  induction members generalizing before after parts with
  | nil =>
    rw [writeMembers] at done
    obtain ⟨rfl, rfl⟩ := run_pure done
    exact .nothing before
  | cons member others ih =>
    rw [List.forall_mem_cons] at each
    simp only [writeMembers, List.headD_nil, List.tail_nil, Bool.false_eq_true, ↓reduceIte] at done
    obtain ⟨text, middle, written, done⟩ := run_bind done
    obtain ⟨rest, draft, restWritten, done⟩ := run_bind done
    have own := each.1 before text middle written
    have behind := ih each.2 restWritten
    have same : draft = after := by
      split at done
      · exact (run_pure done).2
      · exact (run_pure done).2
    exact same ▸ own.append behind

/-- The common block of an AND, if it has any entries. -/
theorem blocks_commonBlock {entries : List Entry} {common : List String}
    (done : (commonBlock entries).run before = .ok (common, after)) :
    ∃ added, after.blocks = before.blocks ++ added ∧
      (∀ block ∈ added, block.content = .all entries) ∧ (entries ≠ [] → added ≠ []) := by
  rw [commonBlock] at done
  split at done
  · next none =>
    obtain ⟨rfl, rfl⟩ := run_pure done
    exact ⟨[], by simp, by simp, fun some => absurd (List.isEmpty_iff.mp none) some⟩
  · obtain ⟨name, rfl, newBlock⟩ := run_bind_pure done
    exact ⟨_, blocks_newSelection newBlock, by simp, fun _ => List.cons_ne_nil _ _⟩

/-- A common block together with the blocks of the members that it does not hold. -/
theorem Pools.covers {entries : List Entry} {held : List Bool}
    (pools : Pools mapping members entries held) {common rest : List Block}
    (content : ∀ block ∈ common, block.content = .all entries)
    (present : entries ≠ [] → common ≠ [])
    (covers : Covers mapping ((remaining held members).flatMap Tree.leaves) rest) :
    Covers mapping (members.flatMap Tree.leaves) (common ++ rest) where
  each field operator value wildcards listed := by
    rcases pools.each field operator value wildcards listed with stays | ⟨name, lone, entry, inside,
      holds⟩
    · obtain ⟨block, listed, compares⟩ := covers.each field operator value wildcards stays
      exact ⟨block, List.mem_append_right _ listed, compares⟩
    · obtain ⟨block, listed⟩ := List.exists_mem_of_ne_nil _ (present (List.ne_nil_of_mem inside))
      refine ⟨block, List.mem_append_left _ listed, ?_⟩
      rw [lone, content block listed]
      exact .one inside holds
  only := by
    refine List.forall_mem_append.mpr ⟨fun block inside entry listed => ?_,
      fun block inside entry listed => ?_⟩
    · rw [content block inside] at listed
      exact pools.only entry listed
    · refine (covers.only block inside entry listed).mono fun leaf stays => ?_
      obtain ⟨member, stays, own⟩ := List.mem_flatMap.mp stays
      exact List.mem_flatMap.mpr ⟨member, mem_of_mem_remaining stays, own⟩

/-- Writing a tree adds the blocks for its leaves. -/
theorem writeTree_extends (strict : naming.strict = true) (proper : tree.Proper) {text : String}
    (done : (writeTree naming mapping tree).run before = .ok (text, after)) :
    Extends mapping tree.leaves before after := by
  induction proper generalizing before after text with
  | leaf =>
    rw [writeTree] at done
    exact writeLeaf_extends strict done
  | negation member _ ih =>
    rw [writeTree] at done
    obtain ⟨inner, rfl, written⟩ := run_bind_pure done
    rw [Tree.leaves_group, List.flatMap_singleton]
    exact ih written
  | single member _ ih =>
    rw [writeTree] at done
    rw [Tree.leaves_group, List.flatMap_singleton]
    exact ih done
  | joined connective members _ ih =>
    have each : ∀ member ∈ members, ∀ before text after,
        (writeTree naming mapping member).run before = .ok (text, after) →
          Extends mapping member.leaves before after :=
      fun member inside _ _ _ => ih member inside
    rw [Tree.leaves_group]
    cases connective with
    | or =>
      rw [Connective.kind, writeTree] at done
      obtain ⟨merged, draft, tried, done⟩ := run_bind done
      -- Where the members do not merge into one block, the attempt has left the draft as it was.
      rcases mergedOr_extends strict tried with ⟨rfl, rfl⟩ | ⟨⟨name, rfl⟩, added⟩
      · obtain ⟨parts, rfl, written⟩ := run_bind_pure done
        exact writeMembers_extends each written
      · obtain ⟨rfl, rfl⟩ := run_pure done
        exact added
    | and =>
      rw [Connective.kind, writeTree_and] at done
      obtain ⟨shared, built, done⟩ := run_lift_bind done
      obtain ⟨common, middle, block, done⟩ := run_bind done
      obtain ⟨parts, rfl, written⟩ := run_bind_pure done
      -- The leaves are divided: some share the common block, the others write blocks behind it.
      obtain ⟨added, blocks, content, present⟩ := blocks_commonBlock block
      obtain ⟨more, moreBlocks, covers⟩ := writeMembers_extends
        (fun member stays => each member (mem_of_mem_remaining stays)) written
      refine ⟨added ++ more, by rw [moreBlocks, blocks, List.append_assoc], ?_⟩
      exact (sharedEntries_pools strict built).covers content present covers

end

/-! ## Conditions -/

theorem leaves_liftMembers (kind : GroupKind) (tree : Tree) :
    (liftMembers kind tree).flatMap Tree.leaves = tree.leaves := by
  cases tree with
  | leaf => simp [liftMembers]
  | group =>
    rw [liftMembers]
    split <;> simp

theorem proper_liftMembers (kind : GroupKind) (proper : tree.Proper) :
    ∀ member ∈ liftMembers kind tree, member.Proper := by
  cases proper with
  | leaf content => simpa [liftMembers] using Tree.Proper.leaf content
  | joined connective members each =>
    rw [liftMembers]
    split
    · exact each
    · simpa using Tree.Proper.joined connective members each
  | negation member proper =>
    rw [liftMembers]
    split
    · simpa using proper
    · simpa using Tree.Proper.negation member proper
  | single member proper =>
    rw [liftMembers]
    split
    · simpa using proper
    · simpa using Tree.Proper.single member proper

/-- Flattening keeps the leaves of a proper tree in their order, and the tree proper. -/
theorem flatten_proper (proper : tree.Proper) :
    (flatten tree).Proper ∧ (flatten tree).leaves = tree.leaves := by
  have members (kind : GroupKind) (members : List Tree)
      (each : ∀ member ∈ members, (flatten member).Proper ∧
        (flatten member).leaves = member.leaves) :
      (∀ member ∈ flattenMembers kind members, member.Proper) ∧
        (flattenMembers kind members).flatMap Tree.leaves = members.flatMap Tree.leaves := by
    induction members with
    | nil => simp [flattenMembers]
    | cons member others ih =>
      rw [List.forall_mem_cons] at each
      obtain ⟨proper, leaves⟩ := ih each.2
      rw [flattenMembers, List.forall_mem_append, List.flatMap_append, leaves_liftMembers, each.1.2,
        leaves]
      exact ⟨⟨proper_liftMembers kind each.1.1, proper⟩, rfl⟩
  have lone (kind : GroupKind) (other : (kind = .and || kind = .or) = false) (member : Tree) :
      flatten (.group kind [member]) = .group kind [flatten member] := by
    cases flat : flatten member <;> simp [flatten, flattenMembers, liftMembers, flat, other]
  induction proper with
  | leaf content => exact ⟨.leaf content, rfl⟩
  | joined connective inner _ ih =>
    obtain ⟨proper, leaves⟩ := members connective.kind inner ih
    rw [flatten]
    exact ⟨.joined connective _ proper, by rw [Tree.leaves_group, Tree.leaves_group, leaves]⟩
  | negation member _ ih =>
    rw [lone .not rfl]
    exact ⟨.negation _ ih.1, by simpa using ih.2⟩
  | single member _ ih =>
    rw [lone .single rfl]
    exact ⟨.single _ ih.1, by simpa using ih.2⟩

/-- The blocks of a written condition cover the leaves of its tree. -/
theorem writeCondition_covers {naming : FieldNaming} (strict : naming.strict = true)
    {mapping : SourceMapping} (proper : tree.Proper) {expression : String}
    (done : writeCondition naming mapping tree = .ok (expression, blocks)) :
    Covers mapping tree.leaves blocks := by
  rw [writeCondition] at done
  obtain ⟨⟨text, draft⟩, written, done⟩ := exists_of_bind done
  cases done
  obtain ⟨flat, leaves⟩ := flatten_proper proper
  obtain ⟨added, blocks, covers⟩ := writeTree_extends strict flat written
  rw [blocks, ← leaves]
  exact covers

end Detection.Sigma

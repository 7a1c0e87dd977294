import Detection.Catalogue.Fields
import Mathlib.Data.List.Basic

/-!
# Field tables in both directions

A field table is filled in two ways. Setting the names of a generic name replaces the names that it
had, and the new names come to stand for it. The old ones are not taken back: a name that only the
replaced entry lists is no longer a name of its generic name, but it still stands for it. Such names
are called dropped here. A table without dropped names says the same in both directions.

Filling up a table with entries of another one replaces nothing, and so keeps the two directions
together.
-/
namespace Detection.FieldTable

/-- Each of some names on the platform has a generic name. -/
def Covers (table : FieldTable) (names : List String) : Prop :=
  ∀ name ∈ names, ∃ generic, table.genericName? name = some generic

theorem knowsAll_iff (table : FieldTable) (names : List String) :
    table.knowsAll names = true ↔ table.Covers names := by
  simp [knowsAll, Covers, Option.isSome_iff_exists]

theorem has_eq_false_iff {table : FieldTable} {generic : String} :
    table.has generic = false ↔ table.forward.lookup generic = none := by
  simp [has]

/-- A generic name with names has an entry. -/
theorem has_of_mem {table : FieldTable} {name generic : String}
    (listed : name ∈ table.platformNames generic) : table.has generic = true := by
  rw [platformNames] at listed
  rw [has]
  cases found : table.forward.lookup generic with
  | none =>
    rw [found] at listed
    cases listed
  | some => rfl

/-! ## Entries that replace each other -/

/-- The names of an entry. Where it lists none, the generic name is its own name. -/
def entryNames (entry : String × List String) : List String :=
  if entry.2.isEmpty then [entry.1] else entry.2

/-- The names that are put into the backward direction stand for the generic name, and all others
for what they stood for. -/
theorem lookup_foldl_putEntry (generic name : String) (names : List String)
    (backward : List (String × String)) :
    (names.foldl (fun backward name => putEntry name generic backward) backward).lookup name =
      if name ∈ names then some generic else backward.lookup name := by
  induction names generalizing backward with
  | nil => simp
  | cons first others ih =>
    rw [List.foldl_cons, ih, lookup_putEntry]
    by_cases later : name ∈ others
    · simp [later]
    · by_cases same : name = first
      · simp [same]
      · simp [later, same]

theorem genericName?_add (table : FieldTable) (entry : String × List String) (name : String) :
    (table.add entry.1 entry.2).genericName? name =
      if name ∈ entryNames entry then some entry.1 else table.genericName? name :=
  lookup_foldl_putEntry entry.1 name (entryNames entry) table.backward

theorem platformNames_add (table : FieldTable) (entry : String × List String) (generic : String) :
    (table.add entry.1 entry.2).platformNames generic =
      if generic = entry.1 then entryNames entry else table.platformNames generic := by
  rw [platformNames, platformNames, add, lookup_putEntry]
  by_cases same : generic = entry.1
  · simp [same, entryNames]
  · simp [same]

theorem addAll_cons (table : FieldTable) (entry : String × List String)
    (others : List (String × List String)) :
    table.addAll (entry :: others) = (table.add entry.1 entry.2).addAll others := rfl

theorem addAll_append (table : FieldTable) (before after : List (String × List String)) :
    table.addAll (before ++ after) = (table.addAll before).addAll after :=
  List.foldl_append

/-- A generic name that no entry sets keeps its names. -/
theorem platformNames_addAll {generic : String} {entries : List (String × List String)}
    (unset : ∀ entry ∈ entries, entry.1 ≠ generic) (table : FieldTable) :
    (table.addAll entries).platformNames generic = table.platformNames generic := by
  induction entries generalizing table with
  | nil => rfl
  | cons entry others ih =>
    obtain ⟨here, later⟩ := List.forall_mem_cons.mp unset
    rw [addAll_cons, ih later, platformNames_add, if_neg (Ne.symm here)]

section Unlisted

variable {name : String} {entries : List (String × List String)}

/-- A name that no entry lists stands for what it stood for. -/
theorem genericName?_addAll (unlisted : ∀ entry ∈ entries, name ∉ entryNames entry)
    (table : FieldTable) : (table.addAll entries).genericName? name = table.genericName? name := by
  induction entries generalizing table with
  | nil => rfl
  | cons entry others ih =>
    obtain ⟨here, later⟩ := List.forall_mem_cons.mp unlisted
    rw [addAll_cons, ih later, genericName?_add, if_neg here]

/-- A name that no entry lists is kept for the generic names that no entry sets. -/
theorem mem_platformNames_addAll (unlisted : ∀ entry ∈ entries, name ∉ entryNames entry)
    (table : FieldTable) (generic : String) :
    name ∈ (table.addAll entries).platformNames generic ↔
      name ∈ table.platformNames generic ∧ ∀ entry ∈ entries, entry.1 ≠ generic := by
  induction entries generalizing table with
  | nil => simp [addAll]
  | cons entry others ih =>
    obtain ⟨here, later⟩ := List.forall_mem_cons.mp unlisted
    rw [addAll_cons, ih later, platformNames_add, List.forall_mem_cons]
    by_cases same : generic = entry.1
    · simp [same, here]
    · simp [same, Ne.symm same]

end Unlisted

/-- The entry that lists a name last, between the entries before it and those behind it. -/
structure LastListing (entries : List (String × List String)) (name : String)
    (before : List (String × List String)) (entry : String × List String)
    (after : List (String × List String)) : Prop where
  whole : entries = before ++ entry :: after
  listed : name ∈ entryNames entry
  unlisted : ∀ later ∈ after, name ∉ entryNames later

/-- A name is dropped if the generic name of the entry that lists it last is set again. -/
def Dropped (entries : List (String × List String)) (name : String) : Prop :=
  ∃ before entry after, LastListing entries name before entry after ∧
    ∃ later ∈ after, later.1 = entry.1

theorem exists_lastListing {entries : List (String × List String)} {name : String}
    (some : ∃ entry ∈ entries, name ∈ entryNames entry) :
    ∃ before entry after, LastListing entries name before entry after := by
  induction entries with
  | nil => simp at some
  | cons first others ih =>
    by_cases again : ∃ entry ∈ others, name ∈ entryNames entry
    · obtain ⟨before, entry, after, whole, listed, unlisted⟩ := ih again
      exact ⟨first :: before, entry, after, by rw [whole]; rfl, listed, unlisted⟩
    · have unlisted : ∀ later ∈ others, name ∉ entryNames later :=
        fun later member listed => again ⟨later, member, listed⟩
      obtain ⟨entry, member, listed⟩ := some
      rcases List.mem_cons.mp member with rfl | behind
      · exact ⟨[], entry, others, rfl, listed, unlisted⟩
      · exact absurd listed (unlisted entry behind)

namespace LastListing

variable {entries before after : List (String × List String)} {name : String}
  {entry : String × List String}

/-- The last entry that lists a name says what it stands for. -/
theorem genericName? (last : LastListing entries name before entry after) :
    (addAll {} entries).genericName? name = some entry.1 := by
  rw [last.whole, addAll_append, addAll_cons, genericName?_addAll last.unlisted, genericName?_add,
    if_pos last.listed]

/-- The name is kept forward as long as the generic name is not set again. -/
theorem mem_platformNames_iff (last : LastListing entries name before entry after) :
    name ∈ (addAll {} entries).platformNames entry.1 ↔ ∀ later ∈ after, later.1 ≠ entry.1 := by
  rw [last.whole, addAll_append, addAll_cons, mem_platformNames_addAll last.unlisted,
    platformNames_add, if_pos rfl]
  exact and_iff_right last.listed

end LastListing

section Filled

variable {entries : List (String × List String)} {name generic : String}

/-- A name that stands for a generic name is listed under it, and by no later entry. -/
theorem exists_lastListing_of_genericName?
    (known : (addAll {} entries).genericName? name = some generic) :
    ∃ before entry after, LastListing entries name before entry after ∧ entry.1 = generic := by
  have some : ∃ entry ∈ entries, name ∈ entryNames entry := by
    by_contra none
    rw [genericName?_addAll fun entry member listed => none ⟨entry, member, listed⟩] at known
    cases known
  obtain ⟨before, entry, after, last⟩ := exists_lastListing some
  exact ⟨before, entry, after, last, Option.some.inj (last.genericName?.symm.trans known)⟩

/-- What a name stands for has it among its names, unless it is dropped. -/
theorem mem_platformNames_iff_not_dropped
    (known : (addAll {} entries).genericName? name = some generic) :
    name ∈ (addAll {} entries).platformNames generic ↔ ¬ Dropped entries name := by
  constructor
  · rintro kept ⟨before, entry, after, last, later, behind, again⟩
    have same : entry.1 = generic := Option.some.inj (last.genericName?.symm.trans known)
    rw [← same, last.mem_platformNames_iff] at kept
    exact kept later behind again
  · intro kept
    obtain ⟨before, entry, after, last, rfl⟩ := exists_lastListing_of_genericName? known
    rw [last.mem_platformNames_iff]
    exact fun later behind again => kept ⟨before, entry, after, last, later, behind, again⟩

/-- Every name of a generic name stands for some generic name. -/
theorem exists_genericName?_of_mem (listed : name ∈ (addAll {} entries).platformNames generic) :
    ∃ own, (addAll {} entries).genericName? name = some own := by
  have some : ∃ entry ∈ entries, name ∈ entryNames entry := by
    by_contra none
    rw [mem_platformNames_addAll fun entry member listed => none ⟨entry, member, listed⟩] at listed
    simp [platformNames] at listed
  obtain ⟨before, entry, after, last⟩ := exists_lastListing some
  exact ⟨entry.1, last.genericName?⟩

end Filled

/-- A step in which a table is filled: with one entry, or with several. -/
inductive Filling
  | add (generic : String) (names : List String)
  | load (entries : List (String × List String))

namespace Filling

def apply (table : FieldTable) : Filling → FieldTable
  | add generic names => table.add generic names
  | load entries => table.addAll entries

def entries : Filling → List (String × List String)
  | add generic names => [(generic, names)]
  | load entries => entries

end Filling

/-- The table after some steps, which begin with the empty one. -/
def fill (steps : List Filling) : FieldTable :=
  steps.foldl Filling.apply {}

theorem fill_eq (steps : List Filling) :
    fill steps = addAll {} (steps.flatMap Filling.entries) := by
  have onward (table : FieldTable) :
      steps.foldl Filling.apply table = table.addAll (steps.flatMap Filling.entries) := by
    induction steps generalizing table with
    | nil => rfl
    | cons step others ih =>
      rw [List.foldl_cons, ih, List.flatMap_cons, addAll_append]
      cases step with
      | add | load => rfl
  exact onward {}

/-- After any steps, a generic name has the names of the last entry for it, and a name stands for
the generic name of the last entry that lists it. That generic name has it among its names if and
only if the name was not dropped. Names are known if each of them is a name of some generic name or
was dropped, and only then. So the two directions agree as long as no name was dropped. -/
theorem fill_agrees_iff (steps : List Filling) :
    (∀ before entry after, steps.flatMap Filling.entries = before ++ entry :: after →
      (∀ later ∈ after, later.1 ≠ entry.1) →
      (fill steps).platformNames entry.1 = entryNames entry) ∧
    (∀ name generic, (fill steps).genericName? name = some generic ↔
      ∃ before entry after,
        LastListing (steps.flatMap Filling.entries) name before entry after ∧
          entry.1 = generic) ∧
    (∀ name generic, (fill steps).genericName? name = some generic →
      (name ∈ (fill steps).platformNames generic ↔
        ¬ Dropped (steps.flatMap Filling.entries) name)) ∧
    ∀ required, (fill steps).knowsAll required = true ↔
      ∀ name ∈ required, (∃ generic, name ∈ (fill steps).platformNames generic) ∨
        Dropped (steps.flatMap Filling.entries) name := by
  rw [fill_eq]
  refine ⟨?_, ?_, fun name generic known => mem_platformNames_iff_not_dropped known, ?_⟩
  · intro before entry after whole unset
    rw [whole, addAll_append, addAll_cons, platformNames_addAll unset, platformNames_add,
      if_pos rfl]
  · intro name generic
    constructor
    · exact exists_lastListing_of_genericName?
    · rintro ⟨before, entry, after, last, rfl⟩
      exact last.genericName?
  · intro required
    rw [knowsAll_iff]
    refine forall₂_congr fun name _ => ?_
    constructor
    · rintro ⟨generic, known⟩
      by_cases dropped : Dropped (steps.flatMap Filling.entries) name
      · exact .inr dropped
      · exact .inl ⟨generic, (mem_platformNames_iff_not_dropped known).mpr dropped⟩
    · rintro (⟨generic, listed⟩ | ⟨before, entry, after, last, _⟩)
      · exact exists_genericName?_of_mem listed
      · exact ⟨entry.1, last.genericName?⟩

/-- Steps of which the last one sets a generic name again, without one of its names. -/
def accountSteps : List Filling := [
  .add "user" ["User", "Account"],
  .load [("host", []), ("source", ["host"])],
  .add "user" ["Account"]]

/-- After these steps the name that was listed again is kept, and the other one is dropped, but both
are known. -/
theorem fill_agrees_iff_account :
    (fill accountSteps).platformNames "user" = ["Account"] ∧
    ((fill accountSteps).genericName? "Account" = some "user" ∧
      ¬ Dropped (accountSteps.flatMap Filling.entries) "Account") ∧
    ((fill accountSteps).genericName? "User" = some "user" ∧
      Dropped (accountSteps.flatMap Filling.entries) "User") ∧
    (fill accountSteps).knowsAll ["host", "User"] = true ∧
    ∀ name ∈ ["host", "User"], (∃ generic, name ∈ (fill accountSteps).platformNames generic) ∨
      Dropped (accountSteps.flatMap Filling.entries) name := by
  obtain ⟨names, _, agrees, known⟩ := fill_agrees_iff accountSteps
  have account : (fill accountSteps).genericName? "Account" = some "user" := by decide
  have user : (fill accountSteps).genericName? "User" = some "user" := by decide
  have all : (fill accountSteps).knowsAll ["host", "User"] = true := by decide
  have last := names (accountSteps.flatMap Filling.entries).dropLast ("user", ["Account"]) [] rfl
    (by simp)
  refine ⟨last, ⟨account, (agrees "Account" "user" account).mp (by decide)⟩, ⟨user, ?_⟩, all,
    (known _).mp all⟩
  by_contra kept
  have listed := (agrees "User" "user" user).mpr kept
  exact absurd listed (by decide)

/-- A name that was replaced still stands for its generic name, of which it is no name any more,
and it is known although it is a name of none. -/
theorem replaced_name_is_known :
    let table := fill [.add "user" ["User"], .add "user" ["Account"]]
    (table.genericName? "User" = some "user" ∧ "User" ∉ table.platformNames "user") ∧
    table.knowsAll ["User"] = true ∧ ∀ generic, "User" ∉ table.platformNames generic := by
  refine ⟨by decide, by decide, fun generic => ?_⟩
  have names : (fill [.add "user" ["User"], .add "user" ["Account"]]).forward =
      [("user", ["Account"])] := by decide
  rw [platformNames, names, List.lookup_cons]
  cases generic == "user" <;> simp

/-! ## Entries that are filled up -/

/-- The two directions of a table agree: what a name stands for has it among its names, and each
name of a generic name stands for one. -/
structure Consistent (table : FieldTable) : Prop where
  listed {name generic : String} (known : table.genericName? name = some generic) :
    name ∈ table.platformNames generic
  known {name generic : String} (listed : name ∈ table.platformNames generic) :
    ∃ own, table.genericName? name = some own

theorem consistent_empty : Consistent {} where
  listed known := by cases known
  known listed := by cases listed

/-- A generic name keeps its entry, and takes over the new one where it had none. -/
theorem lookup_addMissing (table : FieldTable) (generic other : String) (names : List String) :
    (table.addMissing generic names).forward.lookup other =
      (table.forward.lookup other).or ([(generic, names)].lookup other) := by
  rw [addMissing, has]
  split
  · next has =>
    obtain ⟨own, found⟩ := Option.isSome_iff_exists.mp has
    by_cases same : other = generic
    · rw [same, found, Option.some_or]
    · simp [List.lookup_cons, beq_eq_false_iff_ne.mpr same]
  · exact List.lookup_append

/-- New names stand for the generic name, and those that were known for what they stood for. -/
theorem lookup_foldl_missing (generic name : String) (names : List String)
    (backward : List (String × String)) :
    (names.foldl (fun backward name =>
      if (backward.lookup name).isSome then backward else backward ++ [(name, generic)])
      backward).lookup name =
      (backward.lookup name).or (if name ∈ names then some generic else none) := by
  induction names generalizing backward with
  | nil => simp
  | cons first others ih =>
    rw [List.foldl_cons, ih]
    by_cases same : name = first
    · subst same
      cases found : backward.lookup name with
      | none => simp [found, List.lookup_append]
      | some own => simp [found]
    · have apart : (name == first) = false := beq_eq_false_iff_ne.mpr same
      split <;> simp [List.lookup_append, List.lookup_cons, apart, same]

theorem genericName?_addMissing {table : FieldTable} {generic : String}
    (missing : table.has generic = false) (names : List String) (name : String) :
    (table.addMissing generic names).genericName? name =
      (table.genericName? name).or (if name ∈ names then some generic else none) := by
  rw [addMissing, missing]
  exact lookup_foldl_missing generic name names table.backward

/-- A missing entry that is taken over keeps the two directions together: its names are new names,
or were known before, and nothing is replaced. -/
theorem Consistent.addMissing {table : FieldTable} (consistent : table.Consistent)
    (generic : String) (names : List String) : (table.addMissing generic names).Consistent := by
  cases present : table.has generic with
  | true =>
    rw [FieldTable.addMissing, present]
    exact consistent
  | false =>
    have own : (table.addMissing generic names).platformNames generic = names := by
      rw [platformNames, lookup_addMissing, has_eq_false_iff.mp present]
      simp
    have others {other : String} (apart : other ≠ generic) :
        (table.addMissing generic names).platformNames other = table.platformNames other := by
      rw [platformNames, lookup_addMissing, List.lookup_cons, beq_eq_false_iff_ne.mpr apart]
      simp [platformNames]
    refine ⟨fun {name other} known => ?_, fun {name other} listed => ?_⟩
    · rw [genericName?_addMissing present] at known
      cases before : table.genericName? name with
      | none =>
        rw [before, Option.none_or] at known
        split at known
        · next listed =>
          cases known
          rwa [own]
        · cases known
      | some old =>
        rw [before, Option.some_or] at known
        cases known
        have listed := consistent.listed before
        have apart : other ≠ generic := by
          rintro rfl
          exact absurd (has_of_mem listed) (by simp [present])
        rwa [others apart]
    · rw [genericName?_addMissing present]
      by_cases same : other = generic
      · rw [same, own] at listed
        rw [if_pos listed]
        cases table.genericName? name with
        | none => exact ⟨generic, rfl⟩
        | some old => exact ⟨old, rfl⟩
      · rw [others same] at listed
        obtain ⟨old, known⟩ := consistent.known listed
        exact ⟨old, by rw [known, Option.some_or]⟩

theorem mergeMissing_cons (table : FieldTable) (entry : String × List String)
    (others : List (String × List String)) (backward : List (String × String)) :
    table.mergeMissing ⟨entry :: others, backward⟩ =
      (table.addMissing entry.1 entry.2).mergeMissing ⟨others, backward⟩ := rfl

/-- A table that is filled up has its own entries first, and then those of the other one. -/
theorem lookup_mergeMissing (table other : FieldTable) (generic : String) :
    (table.mergeMissing other).forward.lookup generic =
      (table.forward.lookup generic).or (other.forward.lookup generic) := by
  obtain ⟨entries, backward⟩ := other
  induction entries generalizing table with
  | nil => simp [mergeMissing]
  | cons entry others ih =>
    rw [mergeMissing_cons, ih, lookup_addMissing, Option.or_assoc,
      ← List.lookup_append]
    rfl

theorem Consistent.mergeMissing {table : FieldTable} (consistent : table.Consistent)
    (other : FieldTable) : (table.mergeMissing other).Consistent := by
  obtain ⟨entries, backward⟩ := other
  induction entries generalizing table with
  | nil => exact consistent
  | cons entry others ih =>
    exact ih (consistent.addMissing entry.1 entry.2)

end Detection.FieldTable

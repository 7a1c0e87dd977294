import Detection.Proofs.MappingResolution

/-!
# The default mapping

The default mapping of a repository takes over the entries of all its records: first those of the
default record, then those of the others in their order. The first record that has an entry for a
generic name supplies it, and the entries of later records for this name are hidden.

What the default mapping has for a generic name is stated here without the way in which it is
filled, and that its two directions agree. The names of hidden entries are not taken over, not even
to recognise fields by them: the default mapping recognises exactly the names that the supplied
entries list, and a field with another name gets no generic name under it.
-/
namespace Detection

/-- A table has an entry with some names for a generic name. -/
def FieldTable.Defines (table : FieldTable) (generic : String) (names : List String) : Prop :=
  table.has generic = true ∧ table.platformNames generic = names

theorem FieldTable.defines_iff {table : FieldTable} {generic : String} {names : List String} :
    table.Defines generic names ↔ table.forward.lookup generic = some names := by
  rw [Defines, has, platformNames]
  cases table.forward.lookup generic with
  | none | some => simp

namespace Repository

/-- The default record that counts is the last one. -/
def IsDeclared (records : List SourceMapping) (record : SourceMapping) : Prop :=
  ∃ before after, records = before ++ record :: after ∧ record.id = Meta.defaultMapping ∧
    ∀ later ∈ after, later.id ≠ Meta.defaultMapping

/-- The entry for a generic name that some records supply together: that of the default record, or
else that of the first other record that has one. -/
inductive Supplies (records : List SourceMapping) (generic : String) (names : List String) : Prop
  | declared {record : SourceMapping} (own : IsDeclared records record)
      (defines : record.fields.Defines generic names)
  | first {record : SourceMapping}
      (undeclared : ∀ own, IsDeclared records own → own.fields.has generic = false)
      (counts : Counts records record) (defines : record.fields.Defines generic names)
      (before : ∀ other, Counts records other → other.fields.has generic = true →
        place records record ≤ place records other)

theorem getLast?_filter_iff {records : List SourceMapping} {record : SourceMapping} :
    (records.filter (·.id == Meta.defaultMapping)).getLast? = some record ↔
      IsDeclared records record := by
  rw [List.getLast?_filter, List.find?_eq_some_iff_append, IsDeclared]
  constructor
  · rintro ⟨own, after, before, whole, others⟩
    refine ⟨before.reverse, after.reverse, ?_, beq_iff_eq.mp own, fun later member => ?_⟩
    · simpa using List.reverse_eq_append_iff.mp whole
    · simpa using others later (List.mem_reverse.mp member)
  · rintro ⟨before, after, rfl, own, others⟩
    refine ⟨beq_iff_eq.mpr own, after.reverse, before.reverse, by simp, fun later member => ?_⟩
    simpa using others later (List.mem_reverse.mp member)

/-- The entry of the first record in order that has one. -/
theorem findSome?_firstRecords_iff {records : List SourceMapping} {generic : String}
    {names : List String} :
    (firstRecords records).findSome? (·.fields.forward.lookup generic) = some names ↔
      ∃ record, Counts records record ∧ record.fields.Defines generic names ∧
        ∀ other, Counts records other → other.fields.has generic = true →
          place records record ≤ place records other := by
  obtain ⟨members, order⟩ := firstRecords_spec records
  rw [List.findSome?_eq_some_iff]
  constructor
  · rintro ⟨front, record, behind, whole, found, none⟩
    rw [whole, List.pairwise_append, List.pairwise_cons] at order
    refine ⟨record, (members record).mp (by simp [whole]), FieldTable.defines_iff.mpr found,
      fun other counts has => ?_⟩
    have listed := (members other).mpr counts
    rw [whole, List.mem_append, List.mem_cons] at listed
    rcases listed with earlier | rfl | later
    · rw [FieldTable.has, none other earlier] at has
      cases has
    · exact Nat.le_refl _
    · exact Nat.le_of_lt (order.2.1.1 other later)
  · rintro ⟨record, counts, defines, before⟩
    obtain ⟨front, behind, whole⟩ := List.append_of_mem ((members record).mpr counts)
    refine ⟨front, record, behind, whole, FieldTable.defines_iff.mp defines, ?_⟩
    intro earlier listed
    by_contra some
    have has : earlier.fields.has generic = true := by
      rwa [FieldTable.has, Option.isSome_iff_ne_none]
    have sooner := before earlier ((members earlier).mp (by simp [whole, listed])) has
    rw [whole, List.pairwise_append] at order
    exact absurd (order.2.2 earlier listed record (by simp)) (Nat.not_lt.mpr sooner)

section Merging

variable (mappings : List SourceMapping)

theorem lookup_foldl_mergeMissing (table : FieldTable) (generic : String) :
    (mappings.foldl (fun table record => table.mergeMissing record.fields) table).forward.lookup
      generic = (table.forward.lookup generic).or
        (mappings.findSome? (·.fields.forward.lookup generic)) := by
  induction mappings generalizing table with
  | nil => simp
  | cons record others ih =>
    rw [List.foldl_cons, ih, FieldTable.lookup_mergeMissing, Option.or_assoc,
      List.findSome?_cons]
    cases record.fields.forward.lookup generic <;> rfl

theorem foldl_mergeMissing_consistent {table : FieldTable} (consistent : table.Consistent) :
    (mappings.foldl (fun table record => table.mergeMissing record.fields) table).Consistent := by
  induction mappings generalizing table with
  | nil => exact consistent
  | cons record others ih =>
    exact ih (consistent.mergeMissing record.fields)

end Merging

variable (platform : String) (records : List SourceMapping)

theorem lookup_default (generic : String) :
    (ofRecords platform records).default.fields.forward.lookup generic =
      ((records.filter (·.id == Meta.defaultMapping)).getLast?.bind
        (·.fields.forward.lookup generic)).or
        ((firstRecords records).findSome? (·.fields.forward.lookup generic)) := by
  rw [ofRecords, lookup_foldl_mergeMissing]
  cases (records.filter (·.id == Meta.defaultMapping)).getLast? with
  | none => rfl
  | some own =>
    refine congrArg (Option.or · _) ?_
    exact FieldTable.lookup_mergeMissing {} own.fields generic

theorem default_defines_iff (generic : String) (names : List String) :
    (ofRecords platform records).default.fields.Defines generic names ↔
      Supplies records generic names := by
  rw [FieldTable.defines_iff, lookup_default, Option.or_eq_some_iff, Option.bind_eq_some_iff,
    Option.bind_eq_none_iff, findSome?_firstRecords_iff]
  simp only [getLast?_filter_iff, ← FieldTable.has_eq_false_iff]
  constructor
  · rintro (⟨own, declared, found⟩ | ⟨undeclared, record, counts, defines, before⟩)
    · exact .declared declared (FieldTable.defines_iff.mpr found)
    · exact .first undeclared counts defines before
  · rintro (⟨declared, defines⟩ | ⟨undeclared, counts, defines, before⟩)
    · exact .inl ⟨_, declared, FieldTable.defines_iff.mp defines⟩
    · exact .inr ⟨undeclared, _, counts, defines, before⟩

theorem default_consistent : (ofRecords platform records).default.fields.Consistent := by
  rw [ofRecords]
  refine foldl_mergeMissing_consistent _ ?_
  cases (records.filter (·.id == Meta.defaultMapping)).getLast? with
  | none => exact FieldTable.consistent_empty
  | some own => exact FieldTable.consistent_empty.mergeMissing own.fields

/-- The default mapping of any records has for each generic name the names that the records supply,
which are those of the default record if it has an entry and else those of the first other record
that has one, and no names where none of them has an entry. Its two directions agree. -/
theorem default_is_union :
    (∀ generic names, (ofRecords platform records).default.fields.Defines generic names ↔
      Supplies records generic names) ∧
    (∀ generic, (∀ names, ¬ Supplies records generic names) →
      (ofRecords platform records).default.fields.has generic = false ∧
      (ofRecords platform records).default.fields.platformNames generic = []) ∧
    (ofRecords platform records).default.fields.Consistent := by
  refine ⟨default_defines_iff platform records, fun generic unsupplied => ?_,
    default_consistent platform records⟩
  have missing : (ofRecords platform records).default.fields.has generic = false := by
    rw [← Bool.not_eq_true]
    exact fun has => unsupplied _ ((default_defines_iff platform records generic _).mp ⟨has, rfl⟩)
  rw [FieldTable.platformNames, FieldTable.has_eq_false_iff.mp missing]
  exact ⟨missing, rfl⟩

/-- Records of which the first default one and the second under its id do not count. The entry of
the third for a user and that of the second for an image are hidden. -/
def overlappingRecords : List SourceMapping := [
  ⟨"default", none, .addAll {} [("host", ["Host"])]⟩,
  ⟨"windows", none, .addAll {} [("user", ["User", "Account"]), ("image", ["Image"])]⟩,
  ⟨"windows", none, .addAll {} [("port", ["Port"])]⟩,
  ⟨"linux", none, .addAll {} [("user", ["login"]), ("process", ["Image"])]⟩,
  ⟨"default", none, .addAll {} [("image", ["Path"])]⟩]

/-- The default record supplies the entry for an image, the first of the others that for a user,
and no record that counts has one for a host. -/
theorem default_is_union_overlapping :
    Supplies overlappingRecords "image" ["Path"] ∧
    Supplies overlappingRecords "user" ["User", "Account"] ∧
    (∀ names, ¬ Supplies overlappingRecords "host" names) ∧
    (ofRecords "siem" overlappingRecords).default.fields.platformNames "host" = [] ∧
    "Image" ∈ (ofRecords "siem" overlappingRecords).default.fields.platformNames "process" := by
  obtain ⟨defines, missing, consistent⟩ := default_is_union "siem" overlappingRecords
  have unsupplied (names : List String) : ¬ Supplies overlappingRecords "host" names := by
    rw [← defines, FieldTable.Defines]
    exact fun defined => absurd defined.1 (by decide)
  have known : (ofRecords "siem" overlappingRecords).default.fields.genericName? "Image" =
      some "process" := by decide
  refine ⟨(defines "image" ["Path"]).mp ⟨by decide, by decide⟩,
    (defines "user" ["User", "Account"]).mp ⟨by decide, by decide⟩, unsupplied,
    (missing "host" unsupplied).2, consistent.listed known⟩

end Repository

/-! ## Fields under the default mapping -/

/-- Mappings that give a field no name under an id leave what it has there. -/
theorem Field.lookup_withMappings_silent {field : Field} {id : String}
    {mappings : List SourceMapping}
    (silent : ∀ mapping ∈ mappings, mapping.id = id →
      mapping.fields.genericName? field.name = none) :
    (field.withMappings mappings).generic.lookup id = field.generic.lookup id := by
  induction mappings using List.reverseRecOn with
  | nil => rfl
  | append_singleton front last ih =>
    have before := ih fun mapping member =>
      silent mapping (List.mem_append_left _ member)
    rw [withMappings, List.foldl_concat, ← withMappings, name_withMappings]
    cases named : last.fields.genericName? field.name with
    | none => exact before
    | some =>
      have apart : id ≠ last.id := by
        rintro rfl
        rw [silent last (by simp) rfl] at named
        cases named
      simp only [withGenericName, List.lookup_cons, beq_eq_false_iff_ne.mpr apart]
      exact before

namespace Repository

/-- The mappings that serve a query are the default one and records that count. -/
theorem mem_of_resolve {repository : Repository} {required : List String} {hints : Hints}
    {resolved : List SourceMapping} (served : repository.resolve required hints = .ok resolved)
    {mapping : SourceMapping} (listed : mapping ∈ resolved) :
    mapping = repository.default ∨ mapping ∈ repository.mappings := by
  have rest : ∃ test : SourceMapping → Except Defect Bool,
      (repository.mappings.filterM test >>= fun suitable =>
        pure (repository.orDefault suitable)) = .ok resolved := by
    unfold resolve at served
    split at served
    · exact ⟨_, served⟩
    · obtain ⟨useHints, _, done⟩ := exists_of_bind served
      exact ⟨_, done⟩
  obtain ⟨test, done⟩ := rest
  obtain ⟨suitable, filtered, same⟩ := exists_of_bind done
  cases same
  rw [orDefault] at listed
  split at listed
  · exact .inl (List.mem_singleton.mp listed)
  · exact .inr (mem_of_filterM filtered listed)

variable {platform : String} {records : List SourceMapping}

/-- A field of a query gets under the default mapping the generic name that this mapping has for
it. -/
theorem lookup_default_withMappings {required : List String} {hints : Hints}
    {resolved : List SourceMapping}
    (served : (ofRecords platform records).resolve required hints = .ok resolved) (field : Field) :
    (field.withMappings (resolved ++ [(ofRecords platform records).default])).generic.lookup
      Meta.defaultMapping =
      ((ofRecords platform records).default.fields.genericName? field.name).or
        (field.generic.lookup Meta.defaultMapping) := by
  cases named : (ofRecords platform records).default.fields.genericName? field.name with
  | some =>
    rw [Field.withMappings, List.foldl_concat, ← Field.withMappings, Field.name_withMappings, named]
    simp [Field.withGenericName, ofRecords]
  | none =>
    rw [Option.none_or]
    refine Field.lookup_withMappings_silent fun mapping listed special => ?_
    have standard : mapping = (ofRecords platform records).default := by
      rcases List.mem_append.mp listed with chosen | own
      · rcases mem_of_resolve served chosen with same | member
        · exact same
        · have counts := ((firstRecords_spec records).members mapping).mp member
          exact absurd special counts.1
      · exact List.mem_singleton.mp own
    rw [standard, named]

/-- A name is recognised by the default mapping if an entry lists it that the records supply. -/
theorem exists_genericName?_default_iff (platform : String) (records : List SourceMapping)
    (name : String) :
    (∃ generic, (ofRecords platform records).default.fields.genericName? name = some generic) ↔
      ∃ generic names, Supplies records generic names ∧ name ∈ names := by
  have consistent := default_consistent platform records
  constructor
  · rintro ⟨generic, known⟩
    have listed := consistent.listed known
    have defined := (default_defines_iff platform records generic _).mp
      ⟨FieldTable.has_of_mem listed, rfl⟩
    exact ⟨generic, _, defined, listed⟩
  · rintro ⟨generic, names, supplies, listed⟩
    obtain ⟨_, rfl⟩ := (default_defines_iff platform records generic names).mpr supplies
    exact consistent.known listed

/-- The default mapping of any records recognises exactly the names that the entries list which the
records supply; a name that only hidden entries list is not recognised. In a query that the
repository serves, a field without a generic name under the default mapping gets one for exactly
these names. -/
theorem default_recognises_iff (platform : String) (records : List SourceMapping) :
    (∀ name, (∃ generic,
        (ofRecords platform records).default.fields.genericName? name = some generic) ↔
      ∃ generic names, Supplies records generic names ∧ name ∈ names) ∧
    ∀ (required : List String) (hints : Hints) (resolved : List SourceMapping) (field : Field),
      (ofRecords platform records).resolve required hints = .ok resolved →
      field.generic.lookup Meta.defaultMapping = none →
      ((∃ generic, (field.withMappings
          (resolved ++ [(ofRecords platform records).default])).generic.lookup
            Meta.defaultMapping = some generic) ↔
        ∃ generic names, Supplies records generic names ∧ field.name ∈ names) := by
  refine ⟨exists_genericName?_default_iff platform records, ?_⟩
  intro required hints resolved field served fresh
  rw [lookup_default_withMappings served, fresh, Option.or_none]
  exact exists_genericName?_default_iff platform records field.name

/-- Records as they are shipped for a platform: the second has another name for a command line
than the default one. -/
def commandLineRecords : List SourceMapping := [
  ⟨"default", some (.set [] ""), .addAll {} [("CommandLine", ["CommandLine"])]⟩,
  ⟨"windows_security", some (.set [("index", ["windows"])] ""),
    .addAll {} [("EventID", ["EventCode"]), ("CommandLine", ["Process_Command_Line"])]⟩]

/-- Of the two names of the second of these records, the default mapping recognises the one for an
event. A query that the second record serves gets a generic name for it. -/
theorem default_recognises_iff_event :
    (∃ generic names, Supplies commandLineRecords generic names ∧ "EventCode" ∈ names) ∧
    (¬ ∃ generic names, Supplies commandLineRecords generic names ∧
      "Process_Command_Line" ∈ names) ∧
    ∃ resolved, (ofRecords "splunk" commandLineRecords).resolve
        ["EventCode", "Process_Command_Line"] [] = .ok resolved ∧
      resolved.map (·.id) = ["windows_security"] ∧
      ∃ generic, ((⟨"EventCode", []⟩ : Field).withMappings (resolved ++
        [(ofRecords "splunk" commandLineRecords).default])).generic.lookup Meta.defaultMapping =
          some generic := by
  obtain ⟨recognised, fallback⟩ := default_recognises_iff "splunk" commandLineRecords
  have event := (recognised "EventCode").mp ⟨"EventID", by decide⟩
  obtain ⟨resolved, served, ids⟩ : ∃ resolved, (ofRecords "splunk" commandLineRecords).resolve
      ["EventCode", "Process_Command_Line"] [] = .ok resolved ∧
      resolved.map (·.id) = ["windows_security"] := ⟨_, rfl, rfl⟩
  refine ⟨event, ?_, resolved, served, ids,
    (fallback _ _ resolved ⟨"EventCode", []⟩ served rfl).mpr event⟩
  rw [← recognised]
  rintro ⟨generic, known⟩
  have unknown : (ofRecords "splunk" commandLineRecords).default.fields.genericName?
      "Process_Command_Line" = none := by decide
  rw [unknown] at known
  cases known

/-- The second of these records recognises a name that the default mapping does not, and a field
with this name gets a generic name under the record that serves it, but none under the default
mapping. -/
theorem hidden_name_is_unrecognised :
    let repository := ofRecords "splunk" commandLineRecords
    (∃ record, Counts commandLineRecords record ∧
      record.fields.genericName? "Process_Command_Line" = some "CommandLine") ∧
    repository.default.fields.genericName? "Process_Command_Line" = none ∧
    ∃ resolved, repository.resolve ["Process_Command_Line"] [] = .ok resolved ∧
      ((⟨"Process_Command_Line", []⟩ : Field).withMappings
        (resolved ++ [repository.default])).generic = [("windows_security", "CommandLine")] := by
  refine ⟨⟨commandLineRecords[1], ⟨by decide, rfl⟩, by decide⟩, by decide, _, rfl, by decide⟩

end Repository

end Detection

import Detection.Proofs.Outcomes
import Detection.Registry
import Mathlib.Data.List.Induction

/-!
# Mappings with signatures

A repository is built from records, of which the first under each id counts. Hints on the log
source of a query are compared with the signatures of its mappings, and a mapping without one would
be a defect. All platforms give their records signatures when a registry is loaded, so that the
choice of mappings for a query never fails.
-/
namespace Detection

variable {repository : Repository} {records : List SourceMapping} {mapping record : SourceMapping}
  {form : SignatureForm}

/-- A repository all of whose mappings have a signature. -/
structure Repository.Signed (repository : Repository) : Prop where
  mappings : ∀ mapping ∈ repository.mappings, mapping.signature.isSome = true
  default : repository.default.signature.isSome = true

/-- Whether the signature of a mapping accepts hints. -/
def SourceMapping.accepts (mapping : SourceMapping) (hints : Hints) : Bool :=
  mapping.signature.any (·.accepts hints)

namespace Repository

/-- The mapping with an id has a signature. -/
theorem Signed.get? (signed : repository.Signed) {id : String}
    (found : repository.get? id = some mapping) : mapping.signature.isSome = true := by
  unfold Repository.get? at found
  split at found
  · cases found
    exact signed.default
  · exact signed.mappings mapping (List.mem_of_find?_eq_some found)

/-- The mappings that are selected have signatures. -/
theorem Signed.select (signed : repository.Signed) (ids : List String)
    (listed : mapping ∈ repository.select ids) : mapping.signature.isSome = true := by
  unfold Repository.select Repository.orDefault at listed
  split at listed
  · cases List.mem_singleton.mp listed
    exact signed.default
  · obtain ⟨id, _, found⟩ := List.mem_filterMap.mp listed
    exact signed.get? found

theorem Signed.first (signed : repository.Signed) (ids : List String) :
    ((repository.select ids).headD repository.default).signature.isSome = true := by
  cases chosen : repository.select ids with
  | nil => exact signed.default
  | cons first =>
    have listed : first ∈ repository.select ids := chosen ▸ List.mem_cons_self
    exact signed.select ids listed

end Repository

/-- A platform whose records all get a signature. -/
theorem SignatureForm.make_isSome (signs : form.kind ≠ .absent)
    (sources : List (String × List String)) (defaults : List (String × String)) :
    (form.make sources defaults).isSome = true := by
  unfold SignatureForm.make
  split
  · rfl
  · rfl
  · contradiction

/-- A record that was read has a signature. -/
theorem ofText_signed (signs : form.kind ≠ .absent) {text : String}
    (read : SourceMapping.ofText form text = .ok record) : record.signature.isSome = true := by
  obtain ⟨content, _, rest⟩ := exists_of_bind read
  split at rest
  · cases rest
  · cases rest
    exact form.make_isSome signs _ _

namespace Repository

/-- A record that counts in a repository: it is not a default one, and no other record with its id
comes before it. -/
def Counts (records : List SourceMapping) (record : SourceMapping) : Prop :=
  record.id ≠ Meta.defaultMapping ∧ records.find? (·.id == record.id) = some record

theorem Counts.mem (counts : Counts records record) : record ∈ records :=
  List.mem_of_find?_eq_some counts.2

/-- The place at which the id of a record comes first among all records. -/
def place (records : List SourceMapping) (record : SourceMapping) : Nat :=
  (records.map (·.id)).idxOf record.id

/-- The list of the records that count, in the order of all records. -/
structure FirstRecords (records first : List SourceMapping) : Prop where
  members (record : SourceMapping) : record ∈ first ↔ Counts records record
  order : first.Pairwise fun earlier later => place records earlier < place records later

/-- One more record counts if it is no default one and its id is new. -/
theorem firstRecords_concat (records : List SourceMapping) (last : SourceMapping) :
    firstRecords (records ++ [last]) =
      if last.id = Meta.defaultMapping ∨ last.id ∈ (firstRecords records).map (·.id) then
        firstRecords records
      else firstRecords records ++ [last] := by
  by_cases standard : last.id = Meta.defaultMapping
  · simp [firstRecords, standard]
  · simp [firstRecords, standard, List.foldl_append]

/-- A further record does not change which one is found under another id, nor under an id that
has been met. -/
theorem find?_concat {last : SourceMapping} {id : String}
    (known : id = last.id → (records.find? (·.id == id)).isSome = true) :
    (records ++ [last]).find? (·.id == id) = records.find? (·.id == id) := by
  rw [List.find?_append]
  by_cases same : id = last.id
  · obtain ⟨record, found⟩ := Option.isSome_iff_exists.mp (known same)
    rw [found, Option.some_or]
  · have other : (last.id == id) = false := beq_eq_false_iff_ne.mpr (Ne.symm same)
    rw [List.find?_singleton, other]
    simp

/-- A further record leaves the places of those before it. -/
theorem place_concat (listed : record ∈ records) (last : SourceMapping) :
    place (records ++ [last]) record = place records record := by
  rw [place, place, List.map_append, List.idxOf_append_of_mem (List.mem_map_of_mem listed)]

theorem firstRecords_spec (records : List SourceMapping) :
    FirstRecords records (firstRecords records) := by
  -- The scan appends what is new, so the induction is from the right.
  induction records using List.reverseRecOn with
  | nil => exact ⟨by simp [firstRecords, Counts], .nil⟩
  | append_singleton front last ih =>
    obtain ⟨members, order⟩ := ih
    have inside : ∀ record ∈ firstRecords front, record ∈ front := fun record listed =>
      ((members record).mp listed).mem
    have kept : (firstRecords front).Pairwise fun earlier later =>
        place (front ++ [last]) earlier < place (front ++ [last]) later := by
      refine order.imp_of_mem fun {earlier later} first second before => ?_
      rwa [place_concat (inside earlier first), place_concat (inside later second)]
    rw [firstRecords_concat]
    by_cases left : last.id = Meta.defaultMapping ∨ last.id ∈ (firstRecords front).map (·.id)
    · rw [if_pos left]
      refine ⟨fun record => ?_, kept⟩
      rw [members, Counts, Counts]
      refine and_congr_right fun special => ?_
      rw [find?_concat]
      intro same
      obtain ⟨known, listed, id⟩ := List.mem_map.mp (left.resolve_left (same ▸ special))
      rw [same, ← id, ((members known).mp listed).2]
      rfl
    · rw [if_neg left]
      obtain ⟨special, new⟩ := not_or.mp left
      have unmet : front.find? (·.id == last.id) = none := by
        refine Option.eq_none_iff_forall_ne_some.mpr fun known found => ?_
        have id : known.id = last.id := by simpa using List.find?_some found
        have counts : Counts front known := ⟨id ▸ special, id.symm ▸ found⟩
        exact new (List.mem_map.mpr ⟨known, (members known).mpr counts, id⟩)
      refine ⟨fun record => ?_, ?_⟩
      · rw [List.mem_append, List.mem_singleton, members, Counts, Counts]
        by_cases same : record.id = last.id
        · rw [same, List.find?_append, unmet]
          constructor
          · rintro (⟨_, found⟩ | rfl)
            · contradiction
            · simp [special]
          · rintro ⟨_, found⟩
            right
            simpa using found.symm
        · rw [find?_concat fun equal => absurd equal same]
          constructor
          · rintro (counts | rfl)
            · exact counts
            · contradiction
          · exact .inl
      · rw [List.pairwise_append]
        refine ⟨kept, List.pairwise_singleton _ _, fun earlier listed later own => ?_⟩
        have absent : last.id ∉ front.map (·.id) := by simpa using unmet
        have before : place front earlier < (front.map (·.id)).length :=
          List.idxOf_lt_length_of_mem (List.mem_map_of_mem (inside earlier listed))
        have behind : place (front ++ [last]) last = (front.map (·.id)).length := by
          rw [place, List.map_append, List.idxOf_append_of_notMem absent]
          simp
        rwa [List.mem_singleton.mp own, place_concat (inside earlier listed), behind]

/-- A repository of records with signatures is signed. -/
theorem ofRecords_signed (platform : String)
    (each : ∀ record ∈ records, record.signature.isSome = true) :
    (ofRecords platform records).Signed where
  mappings mapping listed :=
    each mapping (((firstRecords_spec records).members mapping).mp listed).mem
  default := rfl

/-- A repository that was loaded is signed. -/
theorem load_signed {set : FileSet} {directory platform : String} (signs : form.kind ≠ .absent)
    (loaded : load set directory platform form = .ok repository) : repository.Signed := by
  unfold load at loaded
  split at loaded
  · cases loaded
  · obtain ⟨records, read, same⟩ := exists_of_bind loaded
    cases same
    refine ofRecords_signed platform fun record listed => ?_
    obtain ⟨name, _, text⟩ := exists_of_mem_mapM read listed
    exact ofText_signed signs (mapError_ok text)

/-- A signed mapping answers whether it accepts hints. -/
theorem acceptsHints_eq (hints : Hints) (signed : mapping.signature.isSome = true) :
    acceptsHints hints mapping = .ok (mapping.accepts hints) := by
  obtain ⟨signature, same⟩ := Option.isSome_iff_exists.mp signed
  simp [acceptsHints, SourceMapping.accepts, same]

theorem anyAccepts_eq (hints : Hints) {mappings : List SourceMapping}
    (signed : ∀ mapping ∈ mappings, mapping.signature.isSome = true) :
    anyAccepts hints mappings = .ok (mappings.any (·.accepts hints)) := by
  induction mappings with
  | nil => rfl
  | cons mapping others ih =>
    obtain ⟨own, rest⟩ := List.forall_mem_cons.mp signed
    rw [anyAccepts, acceptsHints_eq hints own, List.any_cons]
    cases mapping.accepts hints with
    | true => rfl
    | false => exact ih rest

/-- A signed repository serves every query: by the mappings that know its fields and accept its
hints, if there are hints and any mapping accepts them. -/
theorem Signed.resolve_eq (signed : repository.Signed) (required : List String) (hints : Hints) :
    repository.resolve required hints = .ok (repository.orDefault
      (repository.mappings.filter fun mapping => mapping.fields.knowsAll required &&
        (hints.isEmpty || !repository.mappings.any (·.accepts hints) ||
          mapping.accepts hints))) := by
  have served (useHints : Bool) : (do
      let suitable ← repository.mappings.filterM fun mapping => do
        if useHints then
          if ← acceptsHints hints mapping then return mapping.fields.knowsAll required
          else return false
        else return mapping.fields.knowsAll required
      return repository.orDefault suitable : Except Defect (List SourceMapping)) =
        .ok (repository.orDefault (repository.mappings.filter fun mapping =>
          mapping.fields.knowsAll required && (!useHints || mapping.accepts hints))) := by
    rw [filterM_eq fun mapping listed => ?_]
    · rfl
    rw [acceptsHints_eq hints (signed.mappings mapping listed)]
    cases useHints with
    | false => simp [pure, Except.pure]
    | true => cases mapping.accepts hints <;> simp [pure, Except.pure, bind, Except.bind]
  unfold resolve
  split
  · next none =>
    refine (served false).trans ?_
    simp [none]
  · next some =>
    rw [anyAccepts_eq hints signed.mappings]
    refine (served (repository.mappings.any (·.accepts hints))).trans ?_
    simp [some]

end Repository

/-- All repositories of a registry are signed. -/
def Registry.Signed (registry : Registry) : Prop :=
  ∀ repository ∈ [registry.splunk, registry.crowdStrike, registry.qradar, registry.axon,
    registry.openSearch, registry.xql, registry.hunters, registry.sigma, registry.logScale],
    repository.Signed

/-- A registry that was loaded is signed. -/
theorem Registry.load_signed {set : FileSet} {registry : Registry}
    (loaded : Registry.load set = .ok registry) : registry.Signed := by
  unfold Registry.load at loaded
  dsimp only at loaded
  split at loaded
  · next all _ _ =>
    cases loaded
    obtain ⟨splunk, splunkLoaded, all⟩ := exists_of_bind all
    obtain ⟨crowdStrike, crowdStrikeLoaded, all⟩ := exists_of_bind all
    obtain ⟨qradar, qradarLoaded, all⟩ := exists_of_bind all
    obtain ⟨axon, axonLoaded, all⟩ := exists_of_bind all
    obtain ⟨openSearch, openSearchLoaded, all⟩ := exists_of_bind all
    obtain ⟨xql, xqlLoaded, all⟩ := exists_of_bind all
    obtain ⟨hunters, huntersLoaded, all⟩ := exists_of_bind all
    obtain ⟨sigma, sigmaLoaded, all⟩ := exists_of_bind all
    obtain ⟨logScale, logScaleLoaded, all⟩ := exists_of_bind all
    cases all
    simp only [Registry.Signed, List.forall_mem_cons]
    exact ⟨Repository.load_signed (by decide) splunkLoaded,
      Repository.load_signed (by decide) crowdStrikeLoaded,
      Repository.load_signed (by decide) qradarLoaded,
      Repository.load_signed (by decide) axonLoaded,
      Repository.load_signed (by decide) openSearchLoaded,
      Repository.load_signed (by decide) xqlLoaded,
      Repository.load_signed (by decide) huntersLoaded,
      Repository.load_signed (by decide) sigmaLoaded,
      Repository.load_signed (by decide) logScaleLoaded, by simp⟩
  · cases loaded

end Detection

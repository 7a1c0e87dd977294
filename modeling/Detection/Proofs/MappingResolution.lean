import Detection.Proofs.FieldTables
import Detection.Proofs.SignedMappings
import Detection.Proofs.SoleComparison

/-!
# The mappings that serve a query

A query is served by the records of its platform that know all its fields and whose signatures fit
its hints. Hints are put aside where they fit no record, and the default mapping serves where no
record does. What serves is said here without the two passes over the records: by membership, and
by the order of the records.

The fields of a query then have a generic name under each record that serves it, namely the name
that this record has for them.
-/
namespace Detection

open Text

/-- Hints fit a set of sources if each value is known under its key, and exact sources if the key
is known and each value is the one under it. Letter case does not count. -/
def Signature.Fits : Signature → Hints → Prop
  | set sources _, hints => ∀ hint ∈ hints, ∀ value ∈ hint.2,
    ∃ values, sources.lookup hint.1 = some values ∧ ∃ known ∈ values, equalFold known value = true
  | exact sources _, hints => ∀ hint ∈ hints,
    ∃ known, sources.lookup hint.1 = some known ∧ ∀ value ∈ hint.2, equalFold known value = true

/-- The comparison with a signature decides whether hints fit it. -/
theorem Signature.accepts_iff (signature : Signature) (hints : Hints) :
    signature.accepts hints = true ↔ signature.Fits hints := by
  cases signature with
  | set sources =>
    simp only [accepts, Fits, List.all_eq_true]
    refine forall₂_congr fun hint _ => forall₂_congr fun value _ => ?_
    cases sources.lookup hint.1 with
    | none | some => simp
  | exact sources =>
    simp only [accepts, Fits, List.all_eq_true]
    refine forall₂_congr fun hint _ => ?_
    cases sources.lookup hint.1 with
    | none | some => simp

/-- Hints fit the signature of a mapping. -/
def SourceMapping.Fits (mapping : SourceMapping) (hints : Hints) : Prop :=
  ∃ signature, mapping.signature = some signature ∧ signature.Fits hints

theorem SourceMapping.accepts_iff (mapping : SourceMapping) (hints : Hints) :
    mapping.accepts hints = true ↔ mapping.Fits hints := by
  simp [accepts, Fits, Signature.accepts_iff, Option.any_eq_true]

namespace Repository

/-- The records that serve a query with some fields and hints: those that know the fields, and that
the hints fit, if there are hints and they fit any record. They stand in the order of all
records. -/
structure Serving (records : List SourceMapping) (required : List String) (hints : Hints)
    (serving : List SourceMapping) : Prop where
  members (record : SourceMapping) : record ∈ serving ↔
    Counts records record ∧ record.fields.Covers required ∧
      (hints ≠ [] → (∃ other, Counts records other ∧ other.Fits hints) → record.Fits hints)
  order : serving.Pairwise fun earlier later => place records earlier < place records later

/-- No two records that serve a query have the same id. -/
theorem Serving.id_injective {records serving : List SourceMapping} {required : List String}
    {hints : Hints} (serves : Serving records required hints serving)
    {first second : SourceMapping} (one : first ∈ serving) (other : second ∈ serving)
    (same : first.id = second.id) : first = second := by
  obtain ⟨⟨_, found⟩, _⟩ := (serves.members first).mp one
  obtain ⟨⟨_, again⟩, _⟩ := (serves.members second).mp other
  rw [same] at found
  exact Option.some.inj (found.symm.trans again)

/-- The records that know the fields of a query, and that accept its hints where hints are used,
are those that serve it. -/
theorem serving_filter (records : List SourceMapping) (required : List String) (hints : Hints) :
    Serving records required hints ((firstRecords records).filter fun record =>
      record.fields.knowsAll required && (hints.isEmpty ||
        !(firstRecords records).any (·.accepts hints) || record.accepts hints)) := by
  obtain ⟨members, order⟩ := firstRecords_spec records
  have used : (firstRecords records).any (·.accepts hints) = true ↔
      ∃ other, Counts records other ∧ other.Fits hints := by
    simp only [List.any_eq_true, members, SourceMapping.accepts_iff]
  refine ⟨fun record => ?_, order.filter _⟩
  rw [List.mem_filter, members, Bool.and_eq_true, FieldTable.knowsAll_iff, Bool.or_eq_true,
    Bool.or_eq_true, List.isEmpty_iff, Bool.not_eq_true', ← Bool.not_eq_true, used,
    SourceMapping.accepts_iff]
  refine and_congr_right fun _ => and_congr_right fun _ => ?_
  constructor
  · rintro ((none | unused) | fits) some accepted
    · exact absurd none some
    · exact absurd accepted unused
    · exact fits
  · intro fits
    by_cases none : hints = []
    · exact .inl (.inl none)
    · by_cases accepted : ∃ other, Counts records other ∧ other.Fits hints
      · exact .inr (fits none accepted)
      · exact .inl (.inr accepted)

/-- A query is served by the records that serve it, or by the default mapping if there are none. -/
theorem exists_serving (platform : String) {records : List SourceMapping}
    (signed : ∀ record ∈ records, record.signature.isSome = true) (required : List String)
    (hints : Hints) :
    ∃ resolved serving, (ofRecords platform records).resolve required hints = .ok resolved ∧
      Serving records required hints serving ∧
      (serving ≠ [] ∧ resolved = serving ∨
        serving = [] ∧ resolved = [(ofRecords platform records).default]) := by
  refine ⟨_, _, (ofRecords_signed platform signed).resolve_eq required hints,
    serving_filter records required hints, ?_⟩
  rw [orDefault]
  split
  · next none => exact .inr ⟨List.isEmpty_iff.mp none, rfl⟩
  · next some => exact .inl ⟨fun none => some (List.isEmpty_iff.mpr none), rfl⟩

end Repository

/-- A field has the generic name that all mappings under an id give it. -/
theorem Field.lookup_withMappings (field : Field) {mappings : List SourceMapping}
    {mapping : SourceMapping} (listed : mapping ∈ mappings) {generic : String}
    (agree : ∀ other ∈ mappings, other.id = mapping.id →
      other.fields.genericName? field.name = some generic) :
    (field.withMappings mappings).generic.lookup mapping.id = some generic := by
  -- The last mapping that gives a name counts, so the induction is from the right.
  induction mappings using List.reverseRecOn with
  | nil => cases listed
  | append_singleton front last ih =>
    rw [withMappings, List.foldl_concat, ← withMappings, name_withMappings]
    by_cases same : last.id = mapping.id
    · rw [agree last (by simp) same]
      simp [withGenericName, same]
    · have inFront : mapping ∈ front := by
        rcases List.mem_append.mp listed with own | own
        · exact own
        · exact absurd (congrArg SourceMapping.id (List.mem_singleton.mp own).symm) same
      have before := ih inFront fun other member =>
        agree other (List.mem_append_left _ member)
      cases last.fields.genericName? field.name with
      | none => exact before
      | some =>
        simp only [withGenericName, List.lookup_cons, beq_eq_false_iff_ne.mpr (Ne.symm same)]
        exact before

/-- A token and what becomes of it under some mappings. A comparison has for its field, under the
id of each mapping but the default one, the generic name that this mapping gives; all else stays. -/
inductive Token.Carries (mappings : List SourceMapping) : Token → Token → Prop
  | comparison {field known : Field} {operator : Operator} {value : Value} {wildcards : Wildcards}
      (name : known.name = field.name)
      (generic : ∀ mapping ∈ mappings, mapping.id ≠ Meta.defaultMapping → ∃ generic,
        mapping.fields.genericName? field.name = some generic ∧
        known.generic.lookup mapping.id = some generic) :
      Carries mappings (.leaf (.comparison field operator value wildcards))
        (.leaf (.comparison known operator value wildcards))
  | other {token : Token} (fieldless : token.leaf?.bind Leaf.fieldName? = none) :
      Carries mappings token token

namespace Repository

variable {records : List SourceMapping} {tokens : List Token} {hints : Hints}
  {resolved serving : List SourceMapping}

/-- The fields of a query carry the generic names of the records that serve it. -/
theorem Serving.carries (serves : Serving records (Token.fieldNames tokens) hints serving)
    (platform : String)
    (chosen : serving ≠ [] ∧ resolved = serving ∨
      serving = [] ∧ resolved = [(ofRecords platform records).default])
    {token : Token} (listed : token ∈ tokens) :
    token.Carries resolved
      (token.withMappings (resolved ++ [(ofRecords platform records).default])) := by
  cases token with
  | leaf content =>
    cases content with
    | keyword => exact .other rfl
    | comparison field =>
      refine .comparison (field.name_withMappings _) fun mapping member special => ?_
      have own : mapping ∈ serving := by
        rcases chosen with ⟨_, rfl⟩ | ⟨_, rfl⟩
        · exact member
        · cases List.mem_singleton.mp member
          exact absurd rfl special
      have required : field.name ∈ Token.fieldNames tokens := by
        rw [Token.fieldNames, List.mem_eraseDups, List.mem_filterMap]
        exact ⟨_, List.mem_filterMap.mpr ⟨_, listed, rfl⟩, rfl⟩
      obtain ⟨_, covers, _⟩ := (serves.members mapping).mp own
      obtain ⟨generic, known⟩ := covers field.name required
      refine ⟨generic, known, field.lookup_withMappings (List.mem_append_left _ member) ?_⟩
      intro other inAll same
      rcases List.mem_append.mp inAll with inResolved | standard
      · rcases chosen with ⟨_, rfl⟩ | ⟨_, rfl⟩
        · rw [serves.id_injective inResolved own same]
          exact known
        · cases List.mem_singleton.mp inResolved
          exact absurd same.symm special
      · cases List.mem_singleton.mp standard
        exact absurd same.symm special
  | and | or | not | opening | closing | stray => exact .other rfl

/-- A repository that was built from records with signatures serves every query, by the records
that serve it, or by its default mapping exactly if there are none. In a query that was made of
tokens, each comparison carries, for each record that serves the query, the generic name that this
record has for its field, and the tree has the same leaves as the tokens. -/
theorem resolve_serves (platform : String) (records : List SourceMapping)
    (signed : ∀ record ∈ records, record.signature.isSome = true) (hints : Hints) :
    (∀ required, ∃ resolved serving,
      (ofRecords platform records).resolve required hints = .ok resolved ∧
      Serving records required hints serving ∧
      (serving ≠ [] ∧ resolved = serving ∨
        serving = [] ∧ resolved = [(ofRecords platform records).default])) ∧
    ∀ tokens info pipeline query,
      Query.ofTokens (ofRecords platform records) tokens hints info pipeline = .ok query →
      ∃ resolved,
        (ofRecords platform records).resolve (Token.fieldNames tokens) hints = .ok resolved ∧
        query.info.map (·.mappingIds) = some (resolved.map (·.id)) ∧
        List.Forall₂ (Token.Carries resolved) tokens query.tokens ∧
        query.tree.leaves = query.tokens.filterMap Token.leaf? := by
  refine ⟨fun required => exists_serving platform signed required hints, ?_⟩
  intro tokens info pipeline query made
  obtain ⟨resolved, chosen, mapped, compiled, known, _⟩ := Query.ofTokens_ok made
  refine ⟨resolved, chosen, by rw [known]; rfl, ?_, leaves_of_compile compiled⟩
  obtain ⟨found, serving, again, serves, either⟩ :=
    exists_serving platform signed (Token.fieldNames tokens) hints
  obtain rfl := Except.ok.inj (again.symm.trans chosen)
  rw [mapped, List.forall₂_map_right_iff, List.forall₂_same]
  exact fun token listed => serves.carries platform either listed

/-- Records of which the first two have one id, the third has a value of its own for the key of a
hint, and the fourth lacks a field. -/
def hintedRecords : List SourceMapping := [
  ⟨"windows", some (.set [("index", ["main", "win"])] ""), .addAll {} [("user", ["User"])]⟩,
  ⟨"windows", some (.set [("index", ["main"])] ""), .addAll {} [("account", ["User"])]⟩,
  ⟨"linux", some (.exact [("index", "unix")] ""), .addAll {} [("login", ["User"])]⟩,
  ⟨"cloud", some (.set [("index", ["main"])] ""), .addAll {} [("tenant", ["Tenant"])]⟩]

/-- A hint in capital letters leads to the first of these records, under which the field of the
query has the name `user`. -/
theorem resolve_serves_hinted :
    (∀ record ∈ hintedRecords, record.signature.isSome = true) ∧
    (∃ resolved serving,
      (ofRecords "siem" hintedRecords).resolve ["User"] [("index", ["MAIN"])] = .ok resolved ∧
      Serving hintedRecords ["User"] [("index", ["MAIN"])] serving ∧
      (serving ≠ [] ∧ resolved = serving ∨
        serving = [] ∧ resolved = [(ofRecords "siem" hintedRecords).default]) ∧
      resolved.map (·.id) = ["windows"]) ∧
    let token : Token := .leaf (.comparison ⟨"User", []⟩ .eq (.text "bob") {})
    ∃ query, Query.ofTokens (ofRecords "siem" hintedRecords) [token] [("index", ["MAIN"])]
        .initial {} = .ok query ∧
      ∃ resolved, query.info.map (·.mappingIds) = some (resolved.map (·.id)) ∧
        List.Forall₂ (Token.Carries resolved) [token] query.tokens := by
  have signed : ∀ record ∈ hintedRecords, record.signature.isSome = true := by
    simp [hintedRecords]
  obtain ⟨served, made⟩ := resolve_serves "siem" hintedRecords signed [("index", ["MAIN"])]
  refine ⟨signed, ?_, ?_⟩
  · obtain ⟨resolved, serving, chosen, serves, either⟩ := served ["User"]
    refine ⟨resolved, serving, chosen, serves, either, ?_⟩
    have ids : ((ofRecords "siem" hintedRecords).resolve ["User"]
        [("index", ["MAIN"])]).toOption.map (·.map (·.id)) = some ["windows"] := by decide +kernel
    rw [chosen] at ids
    exact Option.some.inj ids
  · intro token
    obtain ⟨query, known⟩ : ∃ query, Query.ofTokens (ofRecords "siem" hintedRecords) [token]
        [("index", ["MAIN"])] .initial {} = .ok query := ⟨_, rfl⟩
    obtain ⟨resolved, _, ids, carries, _⟩ := made [token] .initial {} query known
    exact ⟨query, known, resolved, ids, carries⟩

end Repository

end Detection

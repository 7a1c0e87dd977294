import Detection.Indicator.Search
import Detection.Proofs.Outcomes
import Mathlib.Algebra.Order.Floor.Div
import Mathlib.Data.List.SplitBy

/-!
# Queries for indicators

The indicators that a platform has fields for are ordered by kind and cut into blocks, and each
block becomes a query. A query has a group for each kind of its block, although the groups are made
from runs: a block of ordered indicators has one run for each kind. The last kind of a block may go
on in the next one.

What a query says is described by the comparisons in its groups. There is a query for every block,
since each of its indicators has a field and so makes a comparison.
-/
namespace Detection

open Text IndicatorKind

variable {kind : IndicatorKind} {indicators : List Indicator} {values : List (String × String)}

/-! ## Blocks -/

section Chunks

variable {α : Type} {size : Nat}

theorem chunks_eq_cons (positive : 0 < size) {items : List α} (some : items ≠ []) :
    chunks size items = items.take size :: chunks size (items.drop size) := by
  obtain ⟨before, rfl⟩ := Nat.exists_eq_succ_of_ne_zero (Nat.pos_iff_ne_zero.mp positive)
  cases items with
  | nil => contradiction
  | cons => simp [chunks]

/-- The blocks of a list follow each other. -/
theorem getElem?_chunks (positive : 0 < size) (items : List α) (index : Nat) :
    (chunks size items)[index]? =
      if index * size < items.length then some ((items.drop (index * size)).take size)
      else none := by
  induction index generalizing items with
  | zero =>
    cases items with
    | nil => simp [chunks]
    | cons => rw [chunks_eq_cons positive (List.cons_ne_nil _ _)]; simp
  | succ index ih =>
    cases items with
    | nil => simp [chunks]
    | cons item others =>
      have inside : index * size < ((item :: others).drop size).length ↔
          (index + 1) * size < (item :: others).length := by
        rw [List.length_drop, Nat.succ_mul]
        omega
      rw [chunks_eq_cons positive (List.cons_ne_nil _ _), List.getElem?_cons_succ,
        ih, List.drop_drop, Nat.succ_mul, Nat.add_comm size]
      simp only [inside, Nat.succ_mul]

/-- The number of blocks is the number of items by the size, rounded up. -/
theorem length_chunks (positive : 0 < size) (items : List α) :
    (chunks size items).length = items.length ⌈/⌉ size := by
  refine eq_of_forall_ge_iff fun bound => ?_
  rw [ceilDiv_le_iff_le_mul positive, ← List.getElem?_eq_none_iff, getElem?_chunks positive,
    Nat.mul_comm size]
  simp

end Chunks

/-! ## Indicators in order -/

namespace IndicatorKind

/-- The place of a kind in the order of kinds. -/
def place (kind : IndicatorKind) : Nat := all.idxOf kind

theorem mem_all (kind : IndicatorKind) : kind ∈ all := by cases kind <;> decide

theorem nodup_all : all.Nodup := by decide

theorem ofName?_eq_some_iff {text : String} : ofName? text = some kind ↔ text = kind.name := by
  constructor
  · intro found
    have named := List.find?_some found
    exact (beq_iff_eq.mp named).symm
  · rintro rfl
    cases kind <;> decide

theorem name_inj {other : IndicatorKind} : kind.name = other.name ↔ kind = other := by
  rw [← ofName?_eq_some_iff, ofName?_eq_some_iff.mpr rfl, Option.some_inj]

/-- Kinds that stand before another one have an earlier place. -/
theorem place_lt {other : IndicatorKind} {front back : List IndicatorKind}
    (whole : all = front ++ kind :: back) (member : other ∈ front) : other.place < kind.place := by
  have distinct := nodup_all
  rw [whole, List.nodup_append] at distinct
  have fresh : kind ∉ front := fun own => distinct.2.2 kind own kind List.mem_cons_self rfl
  rw [place, place, whole, List.idxOf_append_of_mem member, List.idxOf_append_of_notMem fresh]
  have inside := List.idxOf_lt_length_of_mem member
  omega

/-- Lists for all kinds, of which only that for one kind has anything. -/
theorem flatMap_all_single {α : Type} (kind : IndicatorKind) (items : List α) :
    (all.flatMap fun other => if other = kind then items else []) = items := by
  cases kind <;> simp [all]

end IndicatorKind

namespace IndicatorSearch

/-- Indicators that are ordered by kind. -/
def Ordered (indicators : List Indicator) : Prop :=
  indicators.Pairwise fun earlier later => earlier.kind.place ≤ later.kind.place

def withKind (indicators : List Indicator) (kind : IndicatorKind) : List Indicator :=
  indicators.filter (·.kind = kind)

/-- The kinds that occur among some indicators. -/
def kindsOf (indicators : List Indicator) : List IndicatorKind :=
  IndicatorKind.all.filter fun kind => indicators.any (·.kind = kind)

theorem mem_kindsOf : kind ∈ kindsOf indicators ↔ withKind indicators kind ≠ [] := by
  simp [kindsOf, withKind, mem_all]

theorem flatMap_withKind_eq_nil {kinds : List IndicatorKind}
    (absent : ∀ indicator ∈ indicators, indicator.kind ∉ kinds) :
    kinds.flatMap (withKind indicators) = [] := by
  rw [List.flatMap_eq_nil_iff]
  intro kind member
  rw [withKind, List.filter_eq_nil_iff]
  intro indicator listed same
  exact absent indicator listed (of_decide_eq_true same ▸ member)

/-- Lists for all kinds, each with indicators of its kind, are in order one after the other. -/
theorem ordered_flatMap {part : IndicatorKind → List Indicator}
    (own : ∀ kind, ∀ indicator ∈ part kind, indicator.kind = kind) :
    Ordered (all.flatMap part) := by
  rw [Ordered, List.pairwise_flatMap]
  constructor
  · intro kind _
    refine List.pairwise_of_forall_mem_list fun one first other second => ?_
    rw [own kind one first, own kind other second]
  · have places : all.Pairwise fun earlier later => earlier.place < later.place := by
      decide
    refine places.imp fun {earlier later} before one first other second => ?_
    rw [own earlier one first, own later other second]
    exact Nat.le_of_lt before

/-- Ordered indicators are those of each kind, one kind after the other. -/
theorem Ordered.flatMap_all (ordered : Ordered indicators) :
    all.flatMap (withKind indicators) = indicators := by
  induction indicators with
  | nil => simp [withKind]
  | cons first others ih =>
    obtain ⟨behind, rest⟩ := List.pairwise_cons.mp ordered
    -- No indicator has a kind before that of the first one, and the first one has no kind behind.
    obtain ⟨front, back, whole⟩ := List.append_of_mem first.kind.mem_all
    have absent : ∀ indicator ∈ first :: others, indicator.kind ∉ front := by
      intro indicator listed own
      have before := place_lt whole own
      rcases List.mem_cons.mp listed with rfl | later
      · exact Nat.lt_irrefl _ before
      · exact Nat.not_lt.mpr (behind indicator later) before
    have later : back.flatMap (withKind (first :: others)) = back.flatMap (withKind others) := by
      refine List.flatMap_congr fun kind member => ?_
      have distinct := nodup_all
      rw [whole, List.nodup_append, List.nodup_cons] at distinct
      have apart : first.kind ≠ kind := fun same => distinct.2.1.1 (same ▸ member)
      simp [withKind, apart]
    have before := ih rest
    rw [whole, List.flatMap_append, List.flatMap_cons,
      flatMap_withKind_eq_nil (List.forall_mem_cons.mp absent).2, List.nil_append] at before
    calc all.flatMap (withKind (first :: others))
      _ = withKind (first :: others) first.kind ++ back.flatMap (withKind others) := by
        rw [whole, List.flatMap_append, List.flatMap_cons, flatMap_withKind_eq_nil absent, later,
          List.nil_append]
      _ = first :: (withKind others first.kind ++ back.flatMap (withKind others)) := by
        simp [withKind]
      _ = first :: others := by rw [before]

/-- Kinds that do not occur add nothing. -/
theorem flatMap_kindsOf (indicators : List Indicator) :
    (kindsOf indicators).flatMap (withKind indicators) =
      all.flatMap (withKind indicators) := by
  unfold kindsOf
  induction all with
  | nil => rfl
  | cons kind others ih =>
    rw [List.filter_cons, List.flatMap_cons, ← ih]
    split
    · exact List.flatMap_cons
    · next absent =>
      have none : withKind indicators kind = [] := by simpa [withKind] using absent
      rw [none, List.nil_append]

/-- Ordered indicators have one run for each kind. -/
theorem Ordered.splitBy_eq (ordered : Ordered indicators) :
    indicators.splitBy (·.kind == ·.kind) = (kindsOf indicators).map (withKind indicators) := by
  rw [List.splitBy_eq_iff]
  have kind_eq {kind : IndicatorKind} {indicator : Indicator}
      (member : indicator ∈ withKind indicators kind) : indicator.kind = kind := by
    simpa using (List.mem_filter.mp member).2
  refine ⟨?_, ?_, ?_, ?_⟩
  · rw [← List.flatMap_def, flatMap_kindsOf, ordered.flatMap_all]
  · intro empty
    obtain ⟨kind, member, none⟩ := List.mem_map.mp empty
    exact mem_kindsOf.mp member none
  · intro run member
    obtain ⟨kind, _, rfl⟩ := List.mem_map.mp member
    refine List.Pairwise.isChain (List.pairwise_of_forall_mem_list fun one first other second => ?_)
    rw [kind_eq first, kind_eq second, beq_self_eq_true]
  · refine List.Pairwise.isChain (List.pairwise_map.mpr ?_)
    refine (nodup_all.filter _).imp_of_mem fun {one other} first second apart => ?_
    refine ⟨mem_kindsOf.mp first, mem_kindsOf.mp second, ?_⟩
    rw [kind_eq (List.getLast_mem _), kind_eq (List.head_mem _)]
    exact beq_eq_false_iff_ne.mpr apart

/-! ## What a query says -/

/-- The fields for a kind in a table by the names of kinds. -/
def namedFields (fields : List (String × List String)) (kind : IndicatorKind) : List String :=
  (fields.lookup kind.name).getD []

/-- The indicators that a platform searches for: of the values under the name of a kind with
fields, in the order of kinds, and for each kind in the order in which they are given. -/
structure Mapped (fields : List (String × List String)) (values : List (String × String))
    (mapped : List Indicator) : Prop where
  ordered : Ordered mapped
  ofKind (kind : IndicatorKind) : withKind mapped kind =
    if namedFields fields kind = [] then []
    else (values.filter (·.1 = kind.name)).map fun value => ⟨kind, value.2⟩

/-- There is only one such list. -/
theorem Mapped.unique {fields : List (String × List String)} {one other : List Indicator}
    (first : Mapped fields values one) (second : Mapped fields values other) : one = other := by
  rw [← first.ordered.flatMap_all, ← second.ordered.flatMap_all]
  exact List.flatMap_congr fun kind _ => (first.ofKind kind).trans (second.ofKind kind).symm

/-- The block of indicators for a query, where a limit below one is none. -/
def block (limit : Int) (mapped : List Indicator) (index : Nat) : List Indicator :=
  if limit ≤ 0 then mapped else (mapped.drop (index * limit.toNat)).take limit.toNat

/-- The comparisons for an indicator: its value with each field of its kind. -/
def comparisonsFor (fields : List (String × List String)) (indicator : Indicator) :
    List (String × String) :=
  (namedFields fields indicator.kind).map (·, indicator.value)

end IndicatorSearch

namespace IndicatorForm

/-- The text of a comparison of a field with a value. -/
def comparisonText (form : IndicatorForm) (comparison : String × String) : String :=
  comparison.1 ++ form.sign ++ form.quote ++ comparison.2 ++ form.quote

/-- The text of a group of alternatives. -/
def groupText (form : IndicatorForm) (comparisons : List (String × String)) : String :=
  "(" ++ join form.or (comparisons.map form.comparisonText) ++ ")"

/-- The text of a query. Only two and more groups stand between parentheses of their own. -/
def queryText (form : IndicatorForm) (groups : List (List (String × String))) : String :=
  if 2 ≤ groups.length then "(" ++ join form.or (groups.map form.groupText) ++ ")"
  else join form.or (groups.map form.groupText)

end IndicatorForm

namespace IndicatorSearch

/-- A text is a query for some indicators: it has one group for each kind that occurs among them,
with the comparisons for the indicators of this kind, and all groups together have the comparisons
for all indicators in order. -/
def SearchesFor (form : IndicatorForm) (fields : List (String × List String))
    (indicators : List Indicator) (text : String) : Prop :=
  ∃ groups : List (IndicatorKind × List (String × String)),
    groups ≠ [] ∧ groups.map (·.1) = kindsOf indicators ∧
    (∀ group ∈ groups,
      group.2 = (withKind indicators group.1).flatMap (comparisonsFor fields)) ∧
    groups.flatMap (·.2) = indicators.flatMap (comparisonsFor fields) ∧
    text = form.queryText (groups.map (·.2))

variable (form : IndicatorForm) (fields : List (String × List String))

theorem fieldsOf_ofNamed (kind : IndicatorKind) :
    (ofNamed form fields).fieldsOf kind = namedFields fields kind := by
  rw [fieldsOf, ofNamed, namedFields]
  congr 1
  induction fields with
  | nil => rfl
  | cons entry others ih =>
    rw [List.filterMap_cons]
    cases found : ofName? entry.1 with
    | none =>
      have apart : kind.name ≠ entry.1 := fun same => by
        rw [ofName?_eq_some_iff.mpr same.symm] at found
        cases found
      rw [List.lookup_cons, beq_eq_false_iff_ne.mpr apart]
      exact ih
    | some other =>
      have same : (kind == other) = (kind.name == entry.1) := by
        rw [ofName?_eq_some_iff.mp found, Bool.eq_iff_iff, beq_iff_eq, beq_iff_eq,
          name_inj]
      rw [Option.map_some, List.lookup_cons, List.lookup_cons, same, ih]

theorem withKind_ofNamed (values : List (String × String)) (kind : IndicatorKind) :
    withKind (Indicator.ofNamed values) kind =
      (values.filter (·.1 = kind.name)).map fun value => ⟨kind, value.2⟩ := by
  rw [withKind, Indicator.ofNamed]
  induction values with
  | nil => rfl
  | cons value others ih =>
    rw [List.filterMap_cons, List.filter_cons]
    by_cases same : value.1 = kind.name
    · rw [ofName?_eq_some_iff.mpr same]
      simpa [same] using ih
    · cases found : ofName? value.1 with
      | none => simpa [same] using ih
      | some other =>
        have apart : other ≠ kind := by
          rintro rfl
          exact same (ofName?_eq_some_iff.mp found)
        simpa [same, apart] using ih

section Covered

variable (search : IndicatorSearch) (indicators : List Indicator)

theorem kind_eq_of_mem_part {indicator : Indicator}
    (member : indicator ∈ if (search.fieldsOf kind).isEmpty then []
      else indicators.filter (·.kind = kind)) : indicator.kind = kind := by
  split at member
  · cases member
  · simpa using (List.mem_filter.mp member).2

theorem covered_ordered : Ordered (search.covered indicators) :=
  ordered_flatMap fun _ _ => search.kind_eq_of_mem_part indicators

theorem withKind_covered (kind : IndicatorKind) :
    withKind (search.covered indicators) kind =
      if search.fieldsOf kind = [] then [] else withKind indicators kind := by
  rw [withKind, covered, List.filter_flatMap]
  refine (List.flatMap_congr fun other _ => ?_).trans (flatMap_all_single kind _)
  by_cases same : other = kind
  · subst same
    rw [if_pos rfl]
    by_cases none : search.fieldsOf other = []
    · simp [none]
    · simp [none, withKind, List.filter_filter]
  · rw [if_neg same, List.filter_eq_nil_iff]
    intro indicator member
    rw [search.kind_eq_of_mem_part indicators member]
    simpa using same

end Covered

/-- The indicators that have a field are those that the platform searches for. -/
theorem mapped_covered (values : List (String × String)) :
    Mapped fields values ((ofNamed form fields).covered (Indicator.ofNamed values)) where
  ordered := covered_ordered _ _
  ofKind kind := by rw [withKind_covered, fieldsOf_ofNamed, withKind_ofNamed]

/-! ## Queries of blocks -/

theorem comparisons_eq (indicator : Indicator) :
    (ofNamed form fields).comparisons indicator =
      (comparisonsFor fields indicator).map form.comparisonText := by
  rw [comparisons, fieldsOf_ofNamed, comparisonsFor, List.map_map]
  rfl

variable {form fields} {indicators : List Indicator}

theorem group?_eq (compared : indicators.flatMap (comparisonsFor fields) ≠ []) :
    (ofNamed form fields).group? indicators =
      some (form.groupText (indicators.flatMap (comparisonsFor fields))) := by
  have parts : indicators.flatMap (ofNamed form fields).comparisons =
      (indicators.flatMap (comparisonsFor fields)).map form.comparisonText := by
    rw [List.map_flatMap]
    exact List.flatMap_congr fun indicator _ => comparisons_eq form fields indicator
  rw [group?, parts]
  split
  · next none => exact absurd (List.map_eq_nil_iff.mp none) compared
  · rfl

/-- Ordered indicators with fields have a group for each kind. -/
theorem groups_eq (ordered : Ordered indicators)
    (fielded : ∀ indicator ∈ indicators, namedFields fields indicator.kind ≠ []) :
    (ofNamed form fields).groups indicators = (kindsOf indicators).map fun kind =>
      form.groupText ((withKind indicators kind).flatMap (comparisonsFor fields)) := by
  rw [groups, ordered.splitBy_eq, List.filterMap_map, ← List.filterMap_eq_map]
  refine List.filterMap_congr fun kind occurs => group?_eq fun none => ?_
  obtain ⟨indicator, member⟩ := List.exists_mem_of_ne_nil _ (mem_kindsOf.mp occurs)
  have empty := List.flatMap_eq_nil_iff.mp none indicator member
  exact fielded indicator (List.mem_filter.mp member).1 (List.map_eq_nil_iff.mp empty)

/-- The query of some groups. -/
theorem query_eq {groups : List (List (String × String))} (some : groups ≠ [])
    (grouped : (ofNamed form fields).groups indicators = groups.map form.groupText) :
    (ofNamed form fields).query indicators = .ok (form.queryText groups) := by
  rw [query, grouped, IndicatorForm.queryText]
  cases groups with
  | nil => contradiction
  | cons first others =>
    cases others with
    | nil | cons => rfl

/-- Ordered indicators with fields have a query that searches for them. -/
theorem exists_query (ordered : Ordered indicators)
    (fielded : ∀ indicator ∈ indicators, namedFields fields indicator.kind ≠ [])
    (some : indicators ≠ []) :
    ∃ text, (ofNamed form fields).query indicators = .ok text ∧
      SearchesFor form fields indicators text := by
  let groups := (kindsOf indicators).map fun kind =>
    (kind, (withKind indicators kind).flatMap (comparisonsFor fields))
  have kinds : groups.map (·.1) = kindsOf indicators := by
    simp [groups, Function.comp_def]
  have nonempty : groups ≠ [] := by
    intro none
    rw [List.map_eq_nil_iff] at none
    have all := ordered.flatMap_all
    rw [← flatMap_kindsOf, none] at all
    exact some all.symm
  refine ⟨form.queryText (groups.map (·.2)), query_eq (by simpa using nonempty) ?_, groups,
    nonempty, kinds, ?_, ?_, rfl⟩
  · rw [groups_eq ordered fielded, List.map_map, List.map_map]
    rfl
  · intro group member
    obtain ⟨kind, _, rfl⟩ := List.mem_map.mp member
    rfl
  · conv_rhs => rw [← ordered.flatMap_all, ← flatMap_kindsOf, List.flatMap_assoc]
    rw [List.flatMap_map]

/-- The blocks of indicators that the platform searches for become queries, one by one. -/
theorem exists_queries (form : IndicatorForm) {mapped : List Indicator}
    (is : Mapped fields values mapped) {size : Nat} (positive : 0 < size) :
    ∃ queries, (chunks size mapped).mapM (ofNamed form fields).query = .ok queries ∧
      queries.length = mapped.length ⌈/⌉ size ∧
      ∀ (index : Nat) (text : String), queries[index]? = some text →
        index * size < mapped.length ∧
        SearchesFor form fields ((mapped.drop (index * size)).take size) text := by
  have fielded : ∀ indicator ∈ mapped, namedFields fields indicator.kind ≠ [] := by
    intro indicator member none
    have own : indicator ∈ withKind mapped indicator.kind := by simp [withKind, member]
    rw [is.ofKind, if_pos none] at own
    cases own
  have searched (index : Nat) (inside : index * size < mapped.length) :
      ∃ text, (ofNamed form fields).query ((mapped.drop (index * size)).take size) = .ok text ∧
        SearchesFor form fields ((mapped.drop (index * size)).take size) text := by
    have part : ((mapped.drop (index * size)).take size).Sublist mapped :=
      (List.take_sublist _ _).trans (List.drop_sublist _ _)
    refine exists_query (is.ordered.sublist part)
      (fun indicator member => fielded indicator (part.subset member)) ?_
    rw [← List.length_pos_iff, List.length_take, List.length_drop]
    omega
  have each : ∀ chunk ∈ chunks size mapped,
      ∃ text, (ofNamed form fields).query chunk = .ok text := by
    intro chunk member
    obtain ⟨index, found⟩ := List.getElem?_of_mem member
    rw [getElem?_chunks positive] at found
    split at found
    · next inside =>
      cases found
      obtain ⟨text, done, _⟩ := searched index inside
      exact ⟨text, done⟩
    · cases found
  obtain ⟨queries, done⟩ := exists_mapM each
  obtain ⟨lengths, texts⟩ := List.forall₂_iff_get.mp (forall₂_of_mapM done)
  refine ⟨queries, done, lengths ▸ length_chunks positive mapped, fun index text found => ?_⟩
  obtain ⟨inQueries, rfl⟩ := List.getElem?_eq_some_iff.mp found
  have inChunks : index < (chunks size mapped).length := lengths ▸ inQueries
  have written := texts index inChunks inQueries
  have chunk := getElem?_chunks positive mapped index
  rw [List.getElem?_eq_getElem inChunks] at chunk
  split at chunk
  · next inside =>
    obtain ⟨text, done, searches⟩ := searched index inside
    rw [List.get_eq_getElem, List.get_eq_getElem, Option.some.inj chunk, done] at written
    exact ⟨inside, Except.ok.inj written ▸ searches⟩
  · cases chunk

/-- Where there is anything to search for, there are queries for all blocks. -/
theorem exists_queriesNamed (form : IndicatorForm) (fields : List (String × List String))
    (limit : Int) (searched : (ofNamed form fields).covered (Indicator.ofNamed values) ≠ []) :
    ∃ queries, (ofNamed form fields).queriesNamed values limit = .ok queries ∧
      queries.length = (if limit ≤ 0 then 1 else
        ((ofNamed form fields).covered (Indicator.ofNamed values)).length ⌈/⌉ limit.toNat) ∧
      ∀ (index : Nat) (text : String), queries[index]? = some text →
        SearchesFor form fields
          (block limit ((ofNamed form fields).covered (Indicator.ofNamed values)) index) text := by
  have is := mapped_covered form fields values
  rw [queriesNamed, IndicatorSearch.queries]
  generalize (ofNamed form fields).covered (Indicator.ofNamed values) = mapped at searched is ⊢
  have total : 0 < mapped.length := List.length_pos_iff.mpr searched
  dsimp only
  rw [if_neg (by simpa using searched)]
  by_cases unlimited : limit ≤ 0
  · obtain ⟨queries, done, number, texts⟩ := exists_queries form is total
    rw [if_pos unlimited, if_pos unlimited, done]
    refine ⟨queries, rfl, ?_, fun index text found => ?_⟩
    · rw [number, Nat.ceilDiv_eq_add_pred_div]
      exact Nat.div_eq_of_lt_le (by omega) (by omega)
    · obtain ⟨inside, searches⟩ := texts index text found
      have first : index = 0 := by
        by_contra later
        have beyond := Nat.le_mul_of_pos_left mapped.length (Nat.pos_of_ne_zero later)
        omega
      rw [first, Nat.zero_mul, List.drop_zero, List.take_length] at searches
      rwa [block, if_pos unlimited]
  · have positive : 0 < limit.toNat := by omega
    obtain ⟨queries, done, number, texts⟩ := exists_queries form is positive
    rw [if_neg unlimited, if_neg unlimited, done]
    refine ⟨queries, rfl, number, fun index text found => ?_⟩
    rw [block, if_neg unlimited]
    exact (texts index text found).2

/-- For every table of fields, all values and every limit there is one list of indicators that the
platform searches for. Without any the search fails, and only then. Else it has one query, or with a
limit as many as there are blocks of that length, rounded up, and each query searches for the
indicators of its block. -/
theorem queriesNamed_search (form : IndicatorForm) (fields : List (String × List String))
    (values : List (String × String)) (limit : Int) :
    ∃ mapped, Mapped fields values mapped ∧
      (∀ other, Mapped fields values other → other = mapped) ∧
      ((ofNamed form fields).queriesNamed values limit = .error .nothing ↔ mapped = []) ∧
      (mapped ≠ [] → ∃ queries,
        (ofNamed form fields).queriesNamed values limit = .ok queries ∧
        queries.length = (if limit ≤ 0 then 1 else mapped.length ⌈/⌉ limit.toNat) ∧
        ∀ (index : Nat) (text : String), queries[index]? = some text →
          SearchesFor form fields (block limit mapped index) text) := by
  have is := mapped_covered form fields values
  refine ⟨_, is, fun other others => others.unique is, ?_, exists_queriesNamed form fields limit⟩
  constructor
  · intro failed
    by_contra searched
    obtain ⟨queries, done, _⟩ := exists_queriesNamed form fields limit searched
    rw [done] at failed
    cases failed
  · intro nothing
    simp [queriesNamed, IndicatorSearch.queries, nothing]

/-- A table with two fields for addresses, one for hashes and none for web addresses, and with a
name that is no kind. -/
def reportFields : List (String × List String) :=
  [("ip", ["RemoteAddressIP4", "LocalAddressIP4"]), ("md5", ["MD5HashData"]), ("url", []),
    ("mutex", ["Name"])]

/-- Values of several kinds in the order of a report. -/
def reportValues : List (String × String) :=
  [("ip", "1.1.1.1"), ("mutex", "m"), ("md5", "aa"), ("url", "http://x"), ("ip", "2.2.2.2"),
    ("ip", "3.3.3.3")]

/-- With two indicators for each query, the addresses are spread over both queries, and the second
one has a group of addresses and one of hashes. Web addresses alone have no query. -/
theorem queriesNamed_search_report :
    (∃ mapped queries, Mapped reportFields reportValues mapped ∧
      (ofNamed crowdStrikeIndicators reportFields).queriesNamed reportValues 2 = .ok queries ∧
      queries.length = 2 ∧
      queries[1]? = some ("((RemoteAddressIP4=\"3.3.3.3\" OR LocalAddressIP4=\"3.3.3.3\") OR " ++
        "(MD5HashData=\"aa\"))") ∧
      SearchesFor crowdStrikeIndicators reportFields [⟨.ip, "3.3.3.3"⟩, ⟨.md5, "aa"⟩]
        ("((RemoteAddressIP4=\"3.3.3.3\" OR LocalAddressIP4=\"3.3.3.3\") OR " ++
          "(MD5HashData=\"aa\"))")) ∧
    (ofNamed crowdStrikeIndicators reportFields).queriesNamed [("url", "http://x")] 2 =
      .error .nothing := by
  constructor
  · obtain ⟨mapped, is, unique, _, made⟩ :=
      queriesNamed_search crowdStrikeIndicators reportFields reportValues 2
    have four : mapped =
        [⟨.ip, "1.1.1.1"⟩, ⟨.ip, "2.2.2.2"⟩, ⟨.ip, "3.3.3.3"⟩, ⟨.md5, "aa"⟩] :=
      (unique _ (mapped_covered crowdStrikeIndicators reportFields reportValues)).symm.trans
        (by decide)
    obtain ⟨queries, done, number, texts⟩ := made (by simp [four])
    have answer : ((ofNamed crowdStrikeIndicators reportFields).queriesNamed reportValues
        2).toOption.bind (·[1]?) = some ("((RemoteAddressIP4=\"3.3.3.3\" OR " ++
          "LocalAddressIP4=\"3.3.3.3\") OR (MD5HashData=\"aa\"))") := by decide +kernel
    rw [done] at answer
    have searches := texts 1 _ answer
    rw [four] at number searches
    exact ⟨mapped, queries, is, done, number, answer, searches⟩
  · obtain ⟨mapped, _, unique, fails, _⟩ :=
      queriesNamed_search crowdStrikeIndicators reportFields [("url", "http://x")] 2
    have covered := unique _ (mapped_covered crowdStrikeIndicators reportFields _)
    exact fails.mpr (covered.symm.trans (by decide))

end IndicatorSearch

end Detection

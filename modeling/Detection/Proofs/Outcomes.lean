import Mathlib.Data.List.Forall2

/-!
# Computations that may fail

Readers and renderers are computations that end with a result or with an error. The lemmas here say
when a computation made of several steps has a result, and what its result says about the steps:
for two steps, for errors that are renamed, and for work on each entry of a list.
-/
namespace Detection

variable {ε α β : Type} {entries : List α} {step : α → Except ε β} {result : β} {results : List β}
  {test : α → Except ε Bool}

/-- A computation that gives a result, and the result of its first step. -/
theorem exists_of_bind {step : Except ε α} {next : α → Except ε β}
    (done : step >>= next = .ok result) :
    ∃ middle, step = .ok middle ∧ next middle = .ok result := by
  cases step with
  | error => cases done
  | ok middle => exact ⟨middle, rfl, done⟩

/-- A computation that fails, and where. -/
theorem cases_of_bind {failure : ε} {step : Except ε α} {next : α → Except ε β}
    (failed : step >>= next = .error failure) :
    step = .error failure ∨ ∃ middle, step = .ok middle ∧ next middle = .error failure := by
  cases step with
  | error => exact .inl (congrArg Except.error (Except.error.inj failed))
  | ok middle => exact .inr ⟨middle, rfl, failed⟩

theorem toOption_eq_some_iff {step : Except ε α} {result : α} :
    step.toOption = some result ↔ step = .ok result := by
  cases step <;> simp [Except.toOption]

/-- Renaming errors leaves results. -/
theorem mapError_ok {δ : Type} {step : Except ε α} {rename : ε → δ} {result : α}
    (done : step.mapError rename = .ok result) : step = .ok result := by
  cases step with
  | error => cases done
  | ok => exact congrArg Except.ok (Except.ok.inj done)

/-- Work on each entry of a list has results if it has one for each entry. -/
theorem exists_mapM (each : ∀ entry ∈ entries, ∃ result, step entry = .ok result) :
    ∃ results, entries.mapM step = .ok results := by
  induction entries with
  | nil => exact ⟨[], rfl⟩
  | cons entry others ih =>
    obtain ⟨first, done⟩ := each entry List.mem_cons_self
    obtain ⟨rest, othersDone⟩ :=
      ih fun other listed => each other (List.mem_cons_of_mem _ listed)
    refine ⟨first :: rest, ?_⟩
    rw [List.mapM_cons, done, othersDone]
    rfl

/-- Each result of a list is that of one of its entries. -/
theorem exists_of_mem_mapM (done : entries.mapM step = .ok results) (listed : result ∈ results) :
    ∃ entry ∈ entries, step entry = .ok result := by
  induction entries generalizing results with
  | nil =>
    cases done
    cases listed
  | cons entry others ih =>
    rw [List.mapM_cons] at done
    obtain ⟨first, stepped, rest⟩ := exists_of_bind done
    obtain ⟨later, others, same⟩ := exists_of_bind rest
    cases same
    rcases List.mem_cons.mp listed with rfl | behind
    · exact ⟨entry, List.mem_cons_self, stepped⟩
    · obtain ⟨other, own, found⟩ := ih others behind
      exact ⟨other, List.mem_cons_of_mem _ own, found⟩

/-- The results of a list are those of its entries, one by one. -/
theorem forall₂_of_mapM (done : entries.mapM step = .ok results) :
    List.Forall₂ (fun entry result => step entry = .ok result) entries results := by
  induction entries generalizing results with
  | nil =>
    cases done
    exact .nil
  | cons entry others ih =>
    rw [List.mapM_cons] at done
    obtain ⟨first, stepped, rest⟩ := exists_of_bind done
    obtain ⟨later, others, same⟩ := exists_of_bind rest
    cases same
    exact .cons stepped (ih others)

/-- If each entry of a list has its result, the list has these results. -/
theorem mapM_of_forall₂
    (each : List.Forall₂ (fun entry result => step entry = .ok result) entries results) :
    entries.mapM step = .ok results := by
  induction each with
  | nil => rfl
  | cons stepped _ ih =>
    rw [List.mapM_cons, stepped, ih]
    rfl

/-- Work on a list is determined by what is done to its entries. -/
theorem mapM_congr {other : α → Except ε β} (same : ∀ entry ∈ entries, step entry = other entry) :
    entries.mapM step = entries.mapM other := by
  induction entries with
  | nil => rfl
  | cons entry others ih =>
    rw [List.mapM_cons, List.mapM_cons, same entry List.mem_cons_self,
      ih fun later listed => same later (List.mem_cons_of_mem _ listed)]

/-- Work that refuses some entries and is done on all others fails if there is one of the former. -/
theorem mapM_refusing (refuses : α → Bool) (failure : ε)
    (each : ∀ entry ∈ entries, ∃ result, step entry = .ok result) :
    (entries.mapM fun entry => if refuses entry then .error failure else step entry) =
      if entries.any refuses then .error failure else entries.mapM step := by
  induction entries with
  | nil => rfl
  | cons entry others ih =>
    obtain ⟨⟨result, stepped⟩, rest⟩ := List.forall_mem_cons.mp each
    rw [List.mapM_cons, List.mapM_cons, ih rest, List.any_cons, stepped]
    cases refuses entry with
    | true => rfl
    | false => cases others.any refuses <;> rfl

/-- What is done to each result of a list can be done to all of them at the end. -/
theorem mapM_map {γ : Type} (step : α → Except ε β) (finish : β → γ) (entries : List α) :
    (entries.mapM fun entry => (step entry).map finish) =
      (entries.mapM step).map (List.map finish) := by
  induction entries with
  | nil => rfl
  | cons entry others ih =>
    rw [List.mapM_cons, List.mapM_cons, ih]
    cases step entry with
    | error => rfl
    | ok => cases others.mapM step <;> rfl

/-- Filtering by a test that has an outcome for every entry keeps those with a positive one. -/
theorem filterM_eq {keeps : α → Bool} (each : ∀ entry ∈ entries, test entry = .ok (keeps entry)) :
    entries.filterM test = .ok (entries.filter keeps) := by
  have collected (kept : List α) :
      entries.filterAuxM test kept = .ok ((entries.filter keeps).reverse ++ kept) := by
    induction entries generalizing kept with
    | nil => rfl
    | cons entry others ih =>
      rw [List.filterAuxM, each entry List.mem_cons_self]
      refine (ih (fun other listed => each other (List.mem_cons_of_mem _ listed))
        _).trans ?_
      cases tested : keeps entry <;> simp [tested]
  rw [List.filterM, collected []]
  exact congrArg Except.ok (by simp)

/-- What a filter has collected was collected before, or is one of the entries. -/
theorem mem_of_filterAuxM {kept left : List α} (done : entries.filterAuxM test kept = .ok left)
    {entry : α} (listed : entry ∈ left) : entry ∈ entries ∨ entry ∈ kept := by
  induction entries generalizing kept with
  | nil =>
    cases done
    exact .inr listed
  | cons first others ih =>
    rw [List.filterAuxM] at done
    obtain ⟨keeps, _, later⟩ := exists_of_bind done
    rcases ih later with behind | before
    · exact .inl (List.mem_cons_of_mem _ behind)
    · cases keeps with
      | false => exact .inr before
      | true =>
        rcases List.mem_cons.mp before with rfl | before
        · exact .inl List.mem_cons_self
        · exact .inr before

/-- What a filter leaves was there before. -/
theorem mem_of_filterM {left : List α} (done : entries.filterM test = .ok left) {entry : α}
    (listed : entry ∈ left) : entry ∈ entries := by
  obtain ⟨collected, tested, same⟩ := exists_of_bind done
  cases same
  rcases mem_of_filterAuxM tested (List.mem_reverse.mp listed) with own | before
  · exact own
  · cases before

/-- A fold has a result if each of its steps has one. -/
theorem exists_foldlM {step : β → α → Except ε β}
    (each : ∀ state, ∀ entry ∈ entries, ∃ next, step state entry = .ok next) (start : β) :
    ∃ result, entries.foldlM step start = .ok result := by
  induction entries generalizing start with
  | nil => exact ⟨start, rfl⟩
  | cons entry others ih =>
    obtain ⟨next, stepped⟩ := each start entry List.mem_cons_self
    obtain ⟨result, done⟩ := ih
      (fun state other listed => each state other (List.mem_cons_of_mem _ listed)) next
    refine ⟨result, ?_⟩
    rw [List.foldlM_cons, stepped]
    exact done

/-- A fold that may fail keeps what each of its steps keeps. -/
theorem foldlM_keeps (kept : β → Prop) {step : β → α → Except ε β}
    (each : ∀ before entry after, kept before → step before entry = .ok after → kept after)
    {start : β} (holds : kept start) (done : entries.foldlM step start = .ok result) :
    kept result := by
  induction entries generalizing start with
  | nil =>
    cases done
    exact holds
  | cons entry others ih =>
    rw [List.foldlM_cons] at done
    obtain ⟨next, stepped, later⟩ := exists_of_bind done
    exact ih (each start entry next holds stepped) later

end Detection

/-!
# Entries by key

A table is kept as the list of its entries, in the order in which their keys came
first.
-/
namespace Detection

/-- Set the value of a key in a table, in the place of an earlier value or at the
end. -/
def putEntry {α : Type} (key : String) (value : α) : List (String × α) → List (String × α)
  | [] => [(key, value)]
  | (other, old) :: rest =>
    if other == key then (key, value) :: rest else (other, old) :: putEntry key value rest

/-- The entry that was put into a table is found under its key, and all others as before. -/
theorem lookup_putEntry {α : Type} (name key : String) (value : α) (table : List (String × α)) :
    (putEntry key value table).lookup name =
      if name == key then some value else table.lookup name := by
  induction table with
  | nil => rw [putEntry, List.lookup_cons, List.lookup_nil]; cases name == key <;> rfl
  | cons entry others ih =>
    obtain ⟨other, old⟩ := entry
    rw [putEntry]
    by_cases same : other = key
    · subst same
      simp only [beq_self_eq_true, ↓reduceIte, List.lookup_cons]
      cases name == other <;> rfl
    · have distinct : (other == key) = false := by simpa using same
      rw [distinct]
      simp only [Bool.false_eq_true, ↓reduceIte, List.lookup_cons, ih]
      by_cases own : name = other
      · subst own
        simp [distinct]
      · have apart : (name == other) = false := by simpa using own
        simp [apart]

end Detection

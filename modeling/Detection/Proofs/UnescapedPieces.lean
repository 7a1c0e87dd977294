import Detection.Render.Alternation

/-!
# Pieces between unescaped separators

A text is cut at the separators that no backslash precedes, where the character in front of a place
is that of the text and not of the piece being read. An alternation is cut twice, and the second cut
sees an alternative without what precedes it. That is a bar or nothing, never a backslash, so both
cuts agree on what is escaped.

Bytes count as characters here. Cutting the characters of a text or its bytes in UTF-8 is the same.
-/
namespace Detection

/-- The characters of a text, each with the one in front of it. -/
def inContext (before : Option Char) (text : List Char) : List (Option Char × Char) :=
  (before :: text.map some).zip text

/-- Whether one of some marks stands at a place, with no backslash in front of it. -/
def isUnescaped (marks : List Char) (place : Option Char × Char) : Bool :=
  marks.contains place.2 && place.1 != some '\\'

/-- A text without those of some marks that no backslash precedes. -/
def dropUnescaped (marks : List Char) (before : Option Char) (text : List Char) : List Char :=
  (inContext before text).flatMap fun place => if isUnescaped marks place then [] else [place.2]

/-- Pieces joined by a separator, with a flag at the characters that join them. -/
def joined (separator : Char) (pieces : List (List Char)) : List (Char × Bool) :=
  [(separator, true)].intercalate (pieces.map (·.map (·, false)))

/-- The bytes of a text in UTF-8, each as the character with its code. -/
def bytewise (text : List Char) : List Char :=
  text.flatMap fun c => (String.utf8EncodeChar c).map Char.ofUInt8

section Dropping

variable {text : List Char} (marks : List Char) (before : Option Char)

theorem inContext_cons (c : Char) :
    inContext before (c :: text) = (before, c) :: inContext (some c) text := rfl

theorem map_snd_inContext : (inContext before text).map Prod.snd = text :=
  List.map_snd_zip (by simp)

theorem dropUnescaped_cons (c : Char) :
    dropUnescaped marks before (c :: text) =
      (if isUnescaped marks (before, c) then [] else [c]) ++ dropUnescaped marks (some c) text :=
  rfl

theorem dropUnescaped_append (left right : List Char) :
    dropUnescaped marks before (left ++ right) =
      dropUnescaped marks before left ++ dropUnescaped marks (left.getLast?.or before) right := by
  induction left generalizing before with
  | nil => rfl
  | cons c rest ih =>
    rw [List.cons_append, dropUnescaped_cons, dropUnescaped_cons, ih, List.append_assoc,
      List.getLast?_cons]
    cases rest.getLast? <;> rfl

/-- Nothing is left exactly if there are only marks, since none of them escapes another one. -/
theorem dropUnescaped_eq_nil_iff {marks : List Char} {before : Option Char}
    (plain : '\\' ∉ marks) (free : before ≠ some '\\') :
    dropUnescaped marks before text = [] ↔ ∀ c ∈ text, c ∈ marks := by
  induction text generalizing before with
  | nil => simp [dropUnescaped, inContext]
  | cons c rest ih =>
    by_cases mark : c ∈ marks
    · have next : some c ≠ some '\\' := fun same => plain (Option.some.inj same ▸ mark)
      simp [dropUnescaped_cons, isUnescaped, mark, free, ih next]
    · simp [dropUnescaped_cons, isUnescaped, mark]

end Dropping

section Splitting

variable {separator : Char} {text : List Char} (marks : List Char) (before : Option Char)
  (current : List Char)

theorem splitUnescapedFrom_ne_nil : splitUnescapedFrom separator before current text ≠ [] := by
  fun_induction splitUnescapedFrom separator before current text <;> simp_all

/-- The characters that join the pieces are the separators that no backslash precedes. -/
theorem joined_splitUnescapedFrom :
    joined separator (splitUnescapedFrom separator before current text) =
      current.reverse.map (·, false) ++
        (inContext before text).map fun place => (place.2, isUnescaped [separator] place) := by
  induction text generalizing before current with
  | nil => simp [splitUnescapedFrom, joined, inContext]
  | cons c rest ih =>
    rw [splitUnescapedFrom, inContext_cons]
    split
    · have behind := ih (some c) []
      rw [joined] at behind ⊢
      rw [List.map_cons, List.intercalate_cons_of_ne_nil (by simp [splitUnescapedFrom_ne_nil]),
        behind]
      simp_all [isUnescaped]
    · rw [ih]
      simp_all [isUnescaped]

theorem map_fst_joined (pieces : List (List Char)) :
    (joined separator pieces).map Prod.fst = [separator].intercalate pieces := by
  induction pieces with
  | nil => rfl
  | cons piece others ih => cases others <;> simp_all [joined, Function.comp_def]

/-- Marks that are dropped from each piece are dropped from the text. The accumulator tells what
precedes a place as well as the text does, as long as no backslash is cut at. -/
theorem flatMap_splitUnescapedFrom (other : separator ≠ '\\')
    (same : before = some '\\' ↔ current.head? = some '\\') :
    (splitUnescapedFrom separator before current text).flatMap (dropUnescaped marks none) =
      dropUnescaped marks none current.reverse ++
        dropUnescaped (separator :: marks) before text := by
  induction text generalizing before current with
  | nil => simp [splitUnescapedFrom, dropUnescaped, inContext]
  | cons c rest ih =>
    rw [splitUnescapedFrom, dropUnescaped_cons]
    split
    · next cut =>
      obtain ⟨rfl, free⟩ : c = separator ∧ before ≠ some '\\' := by simpa using cut
      rw [List.flatMap_cons, ih _ _ (by simpa using other), if_pos (by simp [isUnescaped, free])]
      rfl
    · next kept =>
      have unchanged : isUnescaped (separator :: marks) (before, c) =
          isUnescaped marks (current.head?, c) := by
        grind [isUnescaped]
      have last : dropUnescaped marks current.head? [c] =
          if isUnescaped marks (current.head?, c) then [] else [c] := List.append_nil _
      rw [ih _ _ (by simp), List.reverse_cons, dropUnescaped_append, List.getLast?_reverse,
        Option.or_none, last, unchanged, List.append_assoc]

/-- The pieces are what the text is without the separators that are cut at. -/
theorem flatten_splitUnescaped (other : separator ≠ '\\') (text : List Char) :
    (splitUnescaped separator text).flatten = dropUnescaped [separator] none text := by
  have whole : dropUnescaped [] none = id := by
    funext piece
    simp [dropUnescaped, isUnescaped, ← List.map_eq_flatMap, map_snd_inContext]
  rw [← List.flatMap_id, ← whole]
  exact flatMap_splitUnescapedFrom [] none [] other (by simp)

/-- The characters of the pieces are characters of the text. -/
theorem mem_of_mem_splitUnescaped {piece : List Char} {c : Char} (other : separator ≠ '\\')
    (member : piece ∈ splitUnescaped separator text)
    (inside : c ∈ piece) : c ∈ text := by
  have kept := List.mem_flatten_of_mem member inside
  rw [flatten_splitUnescaped other] at kept
  obtain ⟨place, listed, own⟩ := List.mem_flatMap.mp kept
  split at own
  · cases own
  · exact List.mem_singleton.mp own ▸ (List.of_mem_zip listed).2

/-- The parts of an alternation are the text without the bars and stars that no backslash
precedes. -/
theorem flatten_splitAlternation (text : List Char) :
    (splitAlternation text).flatten.flatten = dropUnescaped ['|', '*'] none text := by
  simp only [splitAlternation, List.flatten_filter_not_isEmpty, List.flatten_flatten,
    List.map_map, Function.comp_def, flatten_splitUnescaped (by decide : '*' ≠ '\\')]
  exact flatMap_splitUnescapedFrom ['*'] none [] (by decide) (by simp)

/-- Neither the groups of an alternation nor their parts are empty. -/
theorem ne_nil_of_mem_splitAlternation {group : List (List Char)}
    (member : group ∈ splitAlternation text) : group ≠ [] ∧ ∀ part ∈ group, part ≠ [] := by
  simp only [splitAlternation, List.mem_filter, List.mem_map] at member
  obtain ⟨⟨alternative, _, rfl⟩, filled⟩ := member
  exact ⟨by simpa using filled, by simp⟩

end Splitting

section Bytes

variable {separator : Char} {text : List Char} {c d : Char}

theorem bytewise_append (left right : List Char) :
    bytewise (left ++ right) = bytewise left ++ bytewise right := List.flatMap_append

theorem bytewise_singleton (one : c.toNat < 128) : bytewise [c] = [c] := by
  have written : String.utf8EncodeChar c = [UInt8.ofNat c.toNat] :=
    if_pos (Nat.le_of_lt_succ one)
  have same : Char.ofUInt8 (UInt8.ofNat c.toNat) = c :=
    Char.toNat_inj.mp (Nat.mod_eq_of_lt (by omega : c.toNat < 256))
  simp [bytewise, written, same]

/-- A byte that is a character by itself is a byte of that character only. -/
theorem eq_of_mem_bytewise (inside : d ∈ bytewise [c]) (low : d.toNat < 128) : d = c := by
  by_cases one : c.toNat < 128
  · simpa [bytewise_singleton one] using inside
  · have bound : ¬ c.val.toNat ≤ 127 := mt Nat.lt_succ_of_le one
    have high : ∀ byte ∈ String.utf8EncodeChar c, 128 ≤ byte.toNat := by
      simp only [String.utf8EncodeChar, if_neg bound]
      split
      · simp
        omega
      · split <;> simp <;> omega
    rw [bytewise, List.flatMap_singleton] at inside
    obtain ⟨byte, listed, rfl⟩ := List.mem_map.mp inside
    exact absurd (high byte listed) (Nat.not_le_of_lt low)

/-- Characters that are no separators are taken into the piece. -/
theorem splitUnescapedFrom_append {plain : List Char} (filled : plain ≠ [])
    (free : separator ∉ plain) (before : Option Char) (current rest : List Char) :
    splitUnescapedFrom separator before current (plain ++ rest) =
      splitUnescapedFrom separator plain.getLast? (plain.reverse ++ current) rest := by
  induction plain generalizing before current with
  | nil => contradiction
  | cons c others ih => cases others <;> simp_all [splitUnescapedFrom, Ne.symm]

theorem splitUnescapedFrom_bytewise (ascii : separator.toNat < 128) {before first : Option Char}
    (same : before = some '\\' ↔ first = some '\\') (current : List Char) :
    splitUnescapedFrom separator first (bytewise current.reverse).reverse (bytewise text) =
      (splitUnescapedFrom separator before current text).map bytewise := by
  induction text generalizing before first current with
  | nil => simp [splitUnescapedFrom, bytewise]
  | cons c rest ih =>
    have next : (bytewise (c :: current).reverse).reverse =
        (bytewise [c]).reverse ++ (bytewise current.reverse).reverse := by
      rw [List.reverse_cons, bytewise_append, List.reverse_append]
    rw [← List.singleton_append, bytewise_append, List.singleton_append]
    by_cases own : c = separator
    · subst own
      rw [bytewise_singleton ascii] at next ⊢
      have equal : (before != some '\\') = (first != some '\\') := by
        rw [Bool.eq_iff_iff]
        simp [same]
      rw [List.singleton_append, splitUnescapedFrom, splitUnescapedFrom, ← equal]
      split
      · simpa [bytewise] using ih Iff.rfl []
      · have behind := @ih (some c) (some c) Iff.rfl (c :: current)
        rwa [next] at behind
    · have free : separator ∉ bytewise [c] :=
        fun inside => own (eq_of_mem_bytewise inside ascii).symm
      rw [splitUnescapedFrom_append (by simp [bytewise]) free, ← next, splitUnescapedFrom,
        if_neg (by simp [own])]
      refine ih ⟨fun same => ?_, fun last => ?_⟩ _
      · cases same
        decide
      · exact congrArg some (eq_of_mem_bytewise (List.mem_of_getLast? last) (by decide)).symm

end Bytes

/-- Cutting a text takes nothing away but the separators that no backslash precedes. The pieces
joined by the separator are the text; a separator in a piece has a backslash right in front of it
in the text, and the separators that join the pieces are exactly those without one. So the parts of
an alternation are not empty and each of its groups has some, and one behind the other they are the
text without the bars and stars that no backslash precedes. At a separator of one byte the bytes of
a text are cut as its characters are. -/
theorem unescaped_separators_cut (separator : Char) (text : List Char) :
    let pieces := splitUnescaped separator text
    [separator].intercalate pieces = text ∧
    (∀ place : Nat, (joined separator pieces)[place]? = some (separator, false) →
      (inContext none text)[place]? = some (some '\\', separator)) ∧
    (∀ (place : Nat) before, (inContext none text)[place]? = some (before, separator) →
      ((joined separator pieces)[place]? = some (separator, true) ↔ before ≠ some '\\')) ∧
    (∀ group ∈ splitAlternation text, group ≠ [] ∧ ∀ part ∈ group, part ≠ []) ∧
    (splitAlternation text).flatten.flatten = dropUnescaped ['|', '*'] none text ∧
    (separator.toNat < 128 → splitUnescaped separator (bytewise text) = pieces.map bytewise) := by
  intro pieces
  have places : joined separator pieces = (inContext none text).map fun place =>
      (place.2, isUnescaped [separator] place) := joined_splitUnescapedFrom none []
  refine ⟨?_, ?_, ?_, fun _ => ne_nil_of_mem_splitAlternation, flatten_splitAlternation text,
    fun ascii => splitUnescapedFrom_bytewise ascii Iff.rfl []⟩
  · rw [← map_fst_joined, places, List.map_map]
    exact map_snd_inContext none
  · intro place kept
    rw [places, List.getElem?_map, Option.map_eq_some_iff] at kept
    obtain ⟨⟨before, c⟩, found, same⟩ := kept
    obtain ⟨rfl, rfl⟩ : c = separator ∧ before = some '\\' := by
      simp_all [isUnescaped]
    exact found
  · intro place before found
    rw [places, List.getElem?_map, found]
    simp [isUnescaped]

end Detection

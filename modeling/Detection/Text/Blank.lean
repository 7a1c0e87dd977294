/-!
# White space

Three sets of characters count as white space in this library. Query dialects
separate their tokens by four characters, the text patterns of the selectors
know five, and trimming follows the Unicode property. The sets are nested in
that order, and every function below says which of them it uses.
-/
namespace Detection.Text

/-- The separators between two tokens of a query. -/
def isGap (c : Char) : Bool :=
  c == ' ' || c == '\t' || c == '\n' || c == '\r'

/-- White space inside a text pattern: the separators and the form feed. -/
def isSpace (c : Char) : Bool :=
  isGap c || c == '\x0c'

/-- The Unicode property White_Space. -/
def isBlank (c : Char) : Bool :=
  isSpace c || c == '\x0b' || c == '\u0085' || c == '\u00a0' || c == '\u1680' ||
    (0x2000 ≤ c.toNat && c.toNat ≤ 0x200a) || c == '\u2028' || c == '\u2029' ||
    c == '\u202f' || c == '\u205f' || c == '\u3000'

/-- Drop the characters of a class from both ends. -/
def trimBy (drops : Char → Bool) (text : List Char) : List Char :=
  ((text.dropWhile drops).reverse.dropWhile drops).reverse

/-- What is dropped from both ends of a text. -/
theorem exists_trimBy (drops : Char → Bool) (text : List Char) :
    ∃ lead trail, (∀ c ∈ lead, drops c = true) ∧ (∀ c ∈ trail, drops c = true) ∧
      text = lead ++ trimBy drops text ++ trail := by
  let behind := text.dropWhile drops
  refine ⟨text.takeWhile drops, (behind.reverse.takeWhile drops).reverse, ?_, ?_, ?_⟩
  · exact List.all_eq_true.mp List.all_takeWhile
  · exact fun c belongs => List.all_eq_true.mp List.all_takeWhile c (List.mem_reverse.mp belongs)
  · rw [trimBy, List.append_assoc, ← List.reverse_append, List.takeWhile_append_dropWhile,
      List.reverse_reverse, List.takeWhile_append_dropWhile]

/-- Nothing is trimmed from a text without the characters that are dropped. -/
theorem trimBy_of_forall {drops : Char → Bool} {text : List Char}
    (kept : ∀ c ∈ text, drops c = false) : trimBy drops text = text := by
  have same (part : List Char) (keeps : ∀ c ∈ part, drops c = false) :
      part.dropWhile drops = part := by
    cases part with
    | nil => rfl
    | cons c others => exact List.dropWhile_cons_of_neg (by simp [keeps c List.mem_cons_self])
  rw [trimBy, same text kept, same text.reverse (by simpa using kept), List.reverse_reverse]

/-- What is dropped around a text does not matter. -/
theorem trimBy_between {drops : Char → Bool} {front back : List Char} (body : List Char)
    (leading : ∀ c ∈ front, drops c = true) (trailing : ∀ c ∈ back, drops c = true) :
    trimBy drops (front ++ body ++ back) = trimBy drops body := by
  rw [trimBy, trimBy, List.append_assoc, List.dropWhile_append_of_pos leading,
    List.dropWhile_append]
  split
  · next dropped =>
    have all : (back ++ []).dropWhile drops = [].dropWhile drops :=
      List.dropWhile_append_of_pos trailing
    rw [List.append_nil] at all
    rw [List.isEmpty_iff.mp dropped, all]
    rfl
  · rw [List.reverse_append, List.dropWhile_append_of_pos (by simpa using trailing)]

/-- Nothing is dropped from a text that starts and ends with a part without the characters that are
dropped. -/
theorem trimBy_of_ends {drops : Char → Bool} {text first last : List Char}
    (begins : first <+: text) (ends : last <:+ text) (firstSome : first ≠ []) (lastSome : last ≠ [])
    (firstKept : ∀ c ∈ first, drops c = false) (lastKept : ∀ c ∈ last, drops c = false) :
    trimBy drops text = text := by
  have kept {part whole : List Char} (leads : part <+: whole) (some : part ≠ [])
      (keeps : ∀ c ∈ part, drops c = false) : whole.dropWhile drops = whole := by
    obtain ⟨c, others, rfl⟩ := List.exists_cons_of_ne_nil some
    obtain ⟨rest, rfl⟩ := leads
    exact List.dropWhile_cons_of_neg (by simp [keeps c List.mem_cons_self])
  rw [trimBy, kept begins firstSome firstKept,
    kept (List.reverse_prefix.mpr ends) (by simpa using lastSome) (by simpa using lastKept),
    List.reverse_reverse]

/-- Drop Unicode white space from both ends. -/
def trimChars (text : List Char) : List Char :=
  trimBy isBlank text

/-- A trimmed text that is not empty has a character other than white space. -/
theorem exists_of_trimChars {text : List Char} (some : trimChars text ≠ []) :
    ∃ c ∈ trimChars text, isBlank c = false := by
  have kept : (text.dropWhile isBlank).reverse.dropWhile isBlank ≠ [] := by
    simpa [trimChars, trimBy] using some
  exact ⟨_, List.mem_reverse.mpr (List.head_mem kept), List.head_dropWhile_not isBlank kept⟩

/-- Drop Unicode white space from both ends. -/
def trim (text : String) : String :=
  String.ofList (trimChars text.toList)

/-- Drop every occurrence of one character from both ends. -/
def trimChar (mark : Char) (text : String) : String :=
  String.ofList (trimBy (· == mark) text.toList)

/-- The maximal runs of characters outside a class, in order. The accumulator
holds the run being read, last character first. -/
def runsFrom (separates : Char → Bool) (current : List Char) : List Char → List (List Char)
  | [] => if current.isEmpty then [] else [current.reverse]
  | c :: rest =>
    if separates c then
      if current.isEmpty then runsFrom separates [] rest
      else current.reverse :: runsFrom separates [] rest
    else runsFrom separates (c :: current) rest

/-- A text with a separator in it has the runs of the two parts. -/
theorem runsFrom_append {separates : Char → Bool} {mark : Char} (cut : separates mark = true)
    (current before after : List Char) :
    runsFrom separates current (before ++ mark :: after) =
      runsFrom separates current before ++ runsFrom separates [] after := by
  induction before generalizing current with
  | nil =>
    simp only [List.nil_append, runsFrom, cut, ↓reduceIte]
    split <;> rfl
  | cons c rest ih =>
    simp only [List.cons_append, runsFrom]
    split
    · split
      · exact ih []
      · rw [ih [], List.cons_append]
    · exact ih (c :: current)

/-- A text without separators is one run. -/
theorem runsFrom_whole {separates : Char → Bool} (current text : List Char)
    (inside : ∀ c ∈ text, separates c = false) (some : current ≠ [] ∨ text ≠ []) :
    runsFrom separates current text = [current.reverse ++ text] := by
  induction text generalizing current with
  | nil => simp [runsFrom, some.resolve_right (by simp)]
  | cons c rest ih =>
    have own : separates c = false := inside c List.mem_cons_self
    rw [runsFrom, own, ih (c :: current)
      (fun other belongs => inside other (List.mem_cons_of_mem _ belongs)) (.inl (by simp))]
    simp

/-- Blanks in front of a text are no words. -/
theorem runsFrom_lead {separates : Char → Bool} {gap : List Char}
    (cut : ∀ c ∈ gap, separates c = true) (rest : List Char) :
    runsFrom separates [] (gap ++ rest) = runsFrom separates [] rest := by
  induction gap with
  | nil => rfl
  | cons mark others ih =>
    obtain ⟨own, behind⟩ := List.forall_mem_cons.mp cut
    rw [List.cons_append, runsFrom, own, ← ih behind]
    rfl

/-- Blanks behind a text are no words. -/
theorem runsFrom_trail {separates : Char → Bool} {gap : List Char}
    (cut : ∀ c ∈ gap, separates c = true) (text : List Char) :
    runsFrom separates [] (text ++ gap) = runsFrom separates [] text := by
  cases gap with
  | nil => rw [List.append_nil]
  | cons mark others =>
    obtain ⟨own, behind⟩ := List.forall_mem_cons.mp cut
    have none := runsFrom_lead behind []
    rw [List.append_nil] at none
    rw [runsFrom_append own, none]
    exact List.append_nil _

/-- A text with a character outside a class has a run. -/
theorem runsFrom_ne_nil {separates : Char → Bool} {current text : List Char}
    (some : current ≠ [] ∨ ∃ c ∈ text, separates c = false) :
    runsFrom separates current text ≠ [] := by
  induction text generalizing current with
  | nil => simpa [runsFrom] using some
  | cons c rest ih =>
    rw [runsFrom]
    split
    · next blank =>
      split
      · next empty =>
        refine ih (.inr ?_)
        obtain ⟨other, listed, inside⟩ := some.resolve_left (by simpa using empty)
        rcases List.mem_cons.mp listed with rfl | behind
        · rw [blank] at inside
          cases inside
        · exact ⟨other, behind, inside⟩
      · simp
    · exact ih (.inl (by simp))

/-- The words of a text: its maximal runs without Unicode white space. -/
def words (text : String) : List String :=
  (runsFrom isBlank [] text.toList).map String.ofList

end Detection.Text

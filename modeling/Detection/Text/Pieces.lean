/-!
# Pieces of a text

Cutting a text at a separator, joining pieces, looking for one text inside
another and replacing it. Everything works on characters and from left to
right, and a replacement is never looked at again.
-/
namespace Detection.Text

/-- The rest of a text behind a leading piece. -/
def dropLeading? (lead text : List Char) : Option (List Char) :=
  lead.isPrefixOf? text

/-- Whether a text starts with a piece. -/
def startsWith (lead text : List Char) : Bool :=
  lead.isPrefixOf text

def endsWith (tail text : List Char) : Bool :=
  tail.isSuffixOf text

/-- Whether a piece occurs in a text. The empty piece occurs everywhere. -/
def occurs (piece : List Char) : List Char → Bool
  | [] => piece.isEmpty
  | c :: rest => piece.isPrefixOf (c :: rest) || occurs piece rest

/-- Whether one text occurs in another. -/
def contains (text piece : String) : Bool :=
  occurs piece.toList text.toList

/-- Whether one of some characters occurs in a text. -/
def containsAny (text : String) (marks : List Char) : Bool :=
  text.toList.any marks.contains

/-- Replace the occurrences of a piece from left to right. After an occurrence
`skip` characters still belong to it. The piece is given by its first character
and the remaining ones, so that it is never empty. -/
def replaceFrom (first : Char) (others new : List Char) : Nat → List Char → List Char
  | _, [] => []
  | 0, c :: rest =>
    if (first :: others).isPrefixOf (c :: rest) then
      new ++ replaceFrom first others new others.length rest
    else c :: replaceFrom first others new 0 rest
  | skip + 1, _ :: rest => replaceFrom first others new skip rest

/-- Put `new` before every character and at the end. -/
def interleave (new : List Char) : List Char → List Char
  | [] => new
  | c :: rest => new ++ c :: interleave new rest

/-- Replace every occurrence of a piece. The empty piece occurs before every
character and at the end. -/
def replaceChars (piece new text : List Char) : List Char :=
  match piece with
  | [] => interleave new text
  | first :: others => replaceFrom first others new 0 text

/-- Replace every occurrence of one text by another. -/
def replace (text piece new : String) : String :=
  String.ofList (replaceChars piece.toList new.toList text.toList)

/-- The pieces between the characters of a class. The accumulator holds the
piece being read, last character first. There is always at least one piece. -/
def splitFrom (separates : Char → Bool) (current : List Char) : List Char → List (List Char)
  | [] => [current.reverse]
  | c :: rest =>
    if separates c then current.reverse :: splitFrom separates [] rest
    else splitFrom separates (c :: current) rest

/-- Cutting a text gives at least one piece. -/
theorem splitFrom_ne_nil (separates : Char → Bool) (current text : List Char) :
    splitFrom separates current text ≠ [] := by
  induction text generalizing current with
  | nil => simp [splitFrom]
  | cons c rest ih =>
    rw [splitFrom]
    split
    · simp
    · exact ih (c :: current)

/-- Cutting a text into one piece only is leaving it as it is. -/
theorem splitFrom_eq_singleton {separates : Char → Bool} {current text piece : List Char}
    (whole : splitFrom separates current text = [piece]) : piece = current.reverse ++ text := by
  induction text generalizing current with
  | nil =>
    obtain rfl : current.reverse = piece := by simpa [splitFrom] using whole
    simp
  | cons c rest ih =>
    rw [splitFrom] at whole
    split at whole
    · exact absurd (List.cons.inj whole).2 (splitFrom_ne_nil separates [] rest)
    · simpa using ih whole

/-- No piece has a separator in it. -/
theorem separates_of_splitFrom {separates : Char → Bool} {current text piece : List Char}
    (plain : ∀ c ∈ current, separates c = false) (own : piece ∈ splitFrom separates current text) :
    ∀ c ∈ piece, separates c = false := by
  induction text generalizing current with
  | nil =>
    obtain rfl : piece = current.reverse := by simpa [splitFrom] using own
    simpa using plain
  | cons c rest ih =>
    rw [splitFrom] at own
    split at own
    · rcases List.mem_cons.mp own with rfl | behind
      · simpa using plain
      · exact ih (by simp) behind
    · rename_i kept
      exact ih (List.forall_mem_cons.mpr ⟨by simpa using kept, plain⟩) own

/-- Without separators there is nothing to cut. -/
theorem splitFrom_whole {separates : Char → Bool} {text : List Char} (current : List Char)
    (whole : ∀ c ∈ text, separates c = false) :
    splitFrom separates current text = [current.reverse ++ text] := by
  induction text generalizing current with
  | nil => simp [splitFrom]
  | cons c rest ih =>
    rw [List.forall_mem_cons] at whole
    simp [splitFrom, whole.1, ih _ whole.2]

/-- Cutting at the characters of a class is what the library does at an element. -/
theorem splitFrom_eq_splitOn (mark : Char) (text : List Char) :
    splitFrom (· == mark) [] text = text.splitOn mark := by
  have behind (current text : List Char) :
      splitFrom (· == mark) current text = text.splitOnPPrepend (· == mark) current := by
    induction text generalizing current with
    | nil => rfl
    | cons c rest ih =>
      rw [splitFrom, List.splitOnPPrepend_cons_eq_if, ih, ih,
        List.splitOnPPrepend_nil_right]
  rw [behind, List.splitOnPPrepend_nil_right, List.splitOn_eq_splitOnP]

/-- No piece has the character in it that was cut at. -/
theorem not_mem_of_mem_splitOn {mark : Char} {text piece : List Char}
    (member : piece ∈ text.splitOn mark) : mark ∉ piece := by
  rw [← splitFrom_eq_splitOn] at member
  intro inside
  have kept := separates_of_splitFrom (by simp) member mark inside
  simp at kept

/-- The pieces of a text between the occurrences of a character. -/
def splitAt (mark : Char) (text : String) : List String :=
  (splitFrom (· == mark) [] text.toList).map String.ofList

/-- No piece of a text has the character in it that was cut at. -/
theorem not_mem_of_mem_splitAt {mark : Char} {text piece : String}
    (member : piece ∈ splitAt mark text) : mark ∉ piece.toList := by
  obtain ⟨chars, listed, rfl⟩ := List.mem_map.mp member
  rw [splitFrom_eq_splitOn] at listed
  rw [String.toList_ofList]
  exact not_mem_of_mem_splitOn listed

/-- The part before the first character of a class, and the part behind it. -/
def cutAt? (cuts : Char → Bool) : List Char → Option (List Char × List Char)
  | [] => none
  | c :: rest =>
    if cuts c then some ([], rest)
    else (cutAt? cuts rest).map fun (before, after) => (c :: before, after)

/-- The part before the first occurrence of a piece, and the part behind it. -/
def cutPiece? (piece : List Char) : List Char → Option (List Char × List Char)
  | [] => if piece.isEmpty then some ([], []) else none
  | c :: rest =>
    match piece.isPrefixOf? (c :: rest) with
    | some after => some ([], after)
    | none => (cutPiece? piece rest).map fun (before, after) => (c :: before, after)

/-- The pieces with a separator between each two. -/
def join (separator : String) : List String → String
  | [] => ""
  | [piece] => piece
  | piece :: next :: others => piece ++ separator ++ join separator (next :: others)

/-- Joining pieces is what the library does with a text between them. -/
theorem join_eq_intercalate (separator : String) (pieces : List String) :
    join separator pieces = separator.intercalate pieces := by
  induction pieces with
  | nil => rfl
  | cons piece others ih =>
    cases others with
    | nil => rw [join, String.intercalate_singleton]
    | cons next remaining => rw [join, ih, String.intercalate_cons_cons]

/-- Pieces that are joined in two parts. -/
theorem join_append (separator : String) (left right : List String) (leftSome : left ≠ [])
    (rightSome : right ≠ []) :
    join separator (left ++ right) = join separator left ++ separator ++ join separator right := by
  induction left with
  | nil => contradiction
  | cons piece others ih =>
    cases others with
    | nil =>
      obtain ⟨next, remaining, rfl⟩ := List.exists_cons_of_ne_nil rightSome
      rfl
    | cons next remaining =>
      have tail := ih (List.cons_ne_nil _ _)
      simp only [List.cons_append] at tail ⊢
      simp only [join, tail, String.append_assoc]

/-- The first piece is at the front of what is joined. -/
theorem prefix_join (separator piece : String) (others : List String) :
    piece.toList <+: (join separator (piece :: others)).toList := by
  cases others with
  | nil => exact List.prefix_rfl
  | cons next remaining =>
    rw [join, String.append_assoc, String.toList_append]
    exact List.prefix_append _ _

/-- The last piece is at the end of what is joined. -/
theorem suffix_join (separator piece : String) (others : List String) :
    piece.toList <:+ (join separator (others ++ [piece])).toList := by
  cases others with
  | nil => exact List.suffix_rfl
  | cons first remaining =>
    rw [join_append separator _ _ (by simp) (by simp), String.toList_append]
    exact List.suffix_append _ _

/-- Pieces behind a first one, in two parts that may be empty. -/
theorem join_cons_append (separator piece : String) (left right : List String) :
    join separator (piece :: left ++ right) =
      piece ++ (if left.isEmpty then "" else separator ++ join separator left) ++
        (if right.isEmpty then "" else separator ++ join separator right) := by
  cases left with
  | nil => cases right <;> simp [join, String.append_assoc]
  | cons first others =>
    cases right with
    | nil => simp [join, String.append_assoc]
    | cons next remaining =>
      rw [join_append separator _ _ (by simp) (by simp)]
      simp [join, String.append_assoc]

/-- Joined pieces have the characters of the pieces and of what joins them. -/
theorem mem_join {separator : String} {pieces : List String} {c : Char}
    (inside : c ∈ (join separator pieces).toList) :
    c ∈ separator.toList ∨ ∃ piece ∈ pieces, c ∈ piece.toList := by
  induction pieces with
  | nil => cases inside
  | cons piece others ih =>
    cases others with
    | nil => exact .inr ⟨piece, List.mem_cons_self, inside⟩
    | cons next remaining =>
      rw [join, String.toList_append, String.toList_append, List.mem_append, List.mem_append]
        at inside
      rcases inside with (first | between) | behind
      · exact .inr ⟨piece, List.mem_cons_self, first⟩
      · exact .inl between
      · obtain between | ⟨other, listed, own⟩ := ih behind
        · exact .inl between
        · exact .inr ⟨other, List.mem_cons_of_mem _ listed, own⟩

/-- Pieces that are joined by a character are cut there again. -/
theorem splitAt_join {mark : Char} {pieces : List String} (some : pieces ≠ [])
    (each : ∀ piece ∈ pieces, mark ∉ piece.toList) :
    splitAt mark (join (String.singleton mark) pieces) = pieces := by
  rw [splitAt, splitFrom_eq_splitOn, join_eq_intercalate, String.toList_intercalate,
    String.toList_singleton,
    List.splitOn_intercalate mark (by simpa using each) (by simpa using some)]
  simp

/-- The pieces of a text make it up. -/
theorem join_splitAt (mark : Char) (text : String) :
    join (String.singleton mark) (splitAt mark text) = text := by
  rw [splitAt, splitFrom_eq_splitOn, join_eq_intercalate, ← String.toList_inj,
    String.toList_intercalate, String.toList_singleton, List.map_map]
  simp [Function.comp_def, List.intercalate_splitOn]

/-- Two texts with a separator between them are cut there, and each of them as it is alone. -/
theorem splitAt_append (mark : Char) (first second : String) :
    splitAt mark (first ++ String.singleton mark ++ second) =
      splitAt mark first ++ splitAt mark second := by
  have some (text : String) : splitAt mark text ≠ [] := by
    simpa [splitAt] using splitFrom_ne_nil (· == mark) [] text.toList
  have joined := join_append (String.singleton mark) _ _ (some first) (some second)
  rw [join_splitAt, join_splitAt] at joined
  rw [← joined]
  refine splitAt_join (by simp [some]) fun piece own => ?_
  exact (List.mem_append.mp own).elim not_mem_of_mem_splitAt not_mem_of_mem_splitAt

end Detection.Text

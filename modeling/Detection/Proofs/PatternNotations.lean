import Detection.Proofs.RenderedLiterals
import Detection.Proofs.WildcardMeaning

/-!
# Patterns in the notations of the platforms

A value with wildcards is written as a regular expression on some platforms and as a pattern of
LIKE on another. Both notations are read here by rules of their own, into the stretches of text
that they ask for. A character of the value that is a mark of the notation is escaped, so that it
asks for itself, and what stands for a star asks for any text. So the platform asks for exactly
the texts that the value describes.

A pattern of LIKE stands in a literal whose quotes are doubled. The two ways of escaping are undone
in the opposite order: the literal denotes the pattern, and the pattern asks for the value.
-/
namespace Detection

open Text Lexer

/-- A notation in which each character of a text has a code of its own is read character by
character, whatever follows. -/
theorem read_codes {read : List Char → Option (List Stretch)} {code : Char → List Char}
    {image : Char → Stretch}
    (step : ∀ c rest, read (code c ++ rest) = (read rest).map (image c :: ·))
    (text rest : List Char) :
    read (text.flatMap code ++ rest) = (read rest).map (text.map image ++ ·) := by
  induction text with
  | nil => simp
  | cons c others ih =>
    rw [List.flatMap_cons, List.append_assoc, step, ih, Option.map_map]
    rfl

/-- The marks of regular expressions. -/
def regexMarks : List Char :=
  ['\\', '.', '^', '$', '|', '?', '*', '+', '(', ')', '[', ']', '\x7b', '\x7d']

/-- Read a regular expression made of characters and of `.*`, which stands for any text. A backslash
makes the next character literal. Any other use of a mark is refused. -/
def readRegex : List Char → Option (List Stretch)
  | [] => some []
  | '\\' :: c :: rest => (readRegex rest).map (.char c :: ·)
  | '.' :: '*' :: rest => (readRegex rest).map (.anyText :: ·)
  | c :: rest => if c ∈ regexMarks then none else (readRegex rest).map (.char c :: ·)

/-- A character that is no mark is read as itself. -/
theorem readRegex_plain {c : Char} (plain : c ∉ regexMarks) (rest : List Char) :
    readRegex (c :: rest) = (readRegex rest).map (.char c :: ·) := by
  have backslash : c ≠ '\\' := fun same => plain (same ▸ by decide)
  have point : c ≠ '.' := fun same => plain (same ▸ by decide)
  rw [readRegex]
  · simp [plain]
  · exact fun _ _ same => absurd same backslash
  · exact fun _ same => absurd same point

/-- A text with stars becomes a regular expression that asks for what the text asks for, if the
marks are all escaped with backslashes. -/
theorem readRegex_globToRegex {escaping : Escaping} {symbols : String}
    (rules : escaping.rules .regex = [Escaping.backslash symbols])
    (marks : ∀ c ∈ regexMarks, c ∈ symbols.toList) (text : String) :
    readRegex (globToRegex escaping text).toList = some (glob '*' text.toList) := by
  have step : ∀ c rest, readRegex ((if c = '*' then ".*".toList else
      escaping.escapeChars .regex [c]) ++ rest) =
        (readRegex rest).map ((if c = '*' then Stretch.anyText else .char c) :: ·) := by
    intro c rest
    by_cases star : c = '*'
    · simp [star, readRegex]
    · rw [if_neg star, if_neg star, Escaping.escapeChars_single rules,
        EscapeRule.apply_backslash, List.flatMap_singleton]
      by_cases symbol : c ∈ symbols.toList
      · simp [symbol, readRegex]
      · have plain : c ∉ regexMarks := fun mark => symbol (marks c mark)
        simp [symbol, readRegex_plain plain]
  have read := read_codes step text.toList []
  rw [List.append_nil] at read
  rw [globToRegex, Escaping.toList_overStars, read]
  simp [readRegex, glob]

/-- A regular expression of characters and `.*` that asks for what a text with stars asks for. -/
def IsRegexOf (regex text : String) : Prop :=
  ∃ stretches, readRegex regex.toList = some stretches ∧
    ∀ subject, Fits stretches subject ↔ Fits (glob '*' text.toList) subject

/-- On the two platforms that compare values with stars by regular expressions, these are made of
characters and of `.*` alone, and the whole texts that they match are those that the value asks
for, whatever marks it has in it. -/
theorem globToRegex_isRegexOf (text : String) :
    IsRegexOf (globToRegex Axon.escaping text) text ∧
    IsRegexOf (globToRegex Xql.escaping text) text := by
  have axon : ∀ c ∈ regexMarks, c ∈ "\\.^$|?*+()[]\x7b\x7d".toList := by simp [regexMarks]
  have xql : ∀ c ∈ regexMarks,
      c ∈ "_!@#$%^&*=+()[]\x7b\x7d|;:'\",.<>?/`~-\\".toList := by simp [regexMarks]
  exact ⟨⟨_, readRegex_globToRegex rfl axon text, fun _ => Iff.rfl⟩,
    ⟨_, readRegex_globToRegex rfl xql text, fun _ => Iff.rfl⟩⟩

/-- Read a pattern of LIKE. A backslash makes the next character literal and has to stand in front
of one, a percent sign stands for any text, and an underscore for any character. -/
def readLike : List Char → Option (List Stretch)
  | [] => some []
  | ['\\'] => none
  | '\\' :: c :: rest => (readLike rest).map (.char c :: ·)
  | '%' :: rest => (readLike rest).map (.anyText :: ·)
  | '_' :: rest => (readLike rest).map (.anyChar :: ·)
  | c :: rest => (readLike rest).map (.char c :: ·)

/-- A pattern of LIKE asks for some stretches, whatever is written behind it. -/
def IsLikeOf (pattern : String) (stretches : List Stretch) : Prop :=
  ∀ rest, readLike (pattern.toList ++ rest) = (readLike rest).map (stretches ++ ·)

namespace IsLikeOf

variable {pattern other : String} {stretches more : List Stretch}

/-- Patterns in a row ask for stretches in a row. -/
theorem append (first : IsLikeOf pattern stretches) (second : IsLikeOf other more) :
    IsLikeOf (pattern ++ other) (stretches ++ more) := by
  intro rest
  have joined : (stretches ++ ·) ∘ (more ++ ·) = (stretches ++ more ++ ·) := by
    funext following
    exact (List.append_assoc stretches more following).symm
  rw [String.toList_append, List.append_assoc, first, second, Option.map_map, joined]

theorem read (whole : IsLikeOf pattern stretches) : readLike pattern.toList = some stretches := by
  have read := whole []
  rwa [List.append_nil, readLike, Option.map_some, List.append_nil] at read

end IsLikeOf

namespace Hunters

def likeRule : EscapeRule := Escaping.backslash "\\%_"

/-- A character asks for itself, behind a backslash if it is a mark of LIKE. -/
theorem readLike_likeRule (c : Char) (rest : List Char) :
    readLike (likeRule.apply [c] ++ rest) = (readLike rest).map (.char c :: ·) := by
  rw [likeRule, EscapeRule.apply_backslash, List.flatMap_singleton]
  by_cases mark : c ∈ "\\%_".toList
  · rw [if_pos mark]
    simp [readLike]
  · have backslash : c ≠ '\\' := fun same => mark (same ▸ by decide)
    have percent : c ≠ '%' := fun same => mark (same ▸ by decide)
    have underscore : c ≠ '_' := fun same => mark (same ▸ by decide)
    rw [if_neg mark, List.singleton_append, readLike]
    · exact fun same _ => absurd same backslash
    · exact fun _ _ same => absurd same backslash
    · exact percent
    · exact underscore

/-- In a pattern the marks of LIKE are escaped first, and then quotes are doubled as in any other
literal. -/
theorem escapeChars_contains (text : List Char) :
    escaping.escapeChars .contains text = escaping.escapeChars .value (likeRule.apply text) := rfl

/-- A text is written as a pattern that asks for its characters. -/
theorem exists_isLikeOf_text (text : String) :
    ∃ pattern, escaping.escape .contains text = escaping.escape .value pattern ∧
      IsLikeOf pattern (text.toList.map .char) := by
  refine ⟨String.ofList (likeRule.apply text.toList), ?_, ?_⟩
  · rw [Escaping.escape, Escaping.escape, String.toList_ofList, escapeChars_contains]
  · intro rest
    rw [String.toList_ofList, EscapeRule.apply_eq_flatMap]
    exact read_codes readLike_likeRule text.toList rest

/-- A text with stars is written as a pattern that asks for what the text asks for. -/
theorem exists_isLikeOf_glob (text : String) :
    ∃ pattern, escaping.overStars .contains "%" text = escaping.escape .value pattern ∧
      IsLikeOf pattern (glob '*' text.toList) := by
  refine ⟨String.ofList (text.toList.flatMap fun c => if c = '*' then ['%'] else
    likeRule.apply [c]), ?_, ?_⟩
  · have each : ∀ c, (if c = '*' then "%".toList else escaping.escapeChars .contains [c]) =
        escaping.escapeChars .value (if c = '*' then ['%'] else likeRule.apply [c]) := by
      intro c
      split
      · rfl
      · exact escapeChars_contains [c]
    rw [← String.toList_inj, Escaping.toList_overStars]
    simp only [each, Escaping.escape, String.toList_ofList]
    rw [Escaping.escapeChars_eq_flatMap, List.flatMap_assoc]
    simp only [← Escaping.escapeChars_eq_flatMap]
  · intro rest
    rw [String.toList_ofList]
    refine read_codes (fun c rest => ?_) text.toList rest
    split
    · rfl
    · exact readLike_likeRule c rest

/-- The body of a pattern for a single value asks for what the value asks for. -/
theorem exists_isLikeOf {value : Value} {stretches : List Stretch}
    (known : value.stretches? = some stretches) :
    ∃ content pattern, value.content = .ok content ∧ IsLikeOf pattern stretches ∧
      (if value.isSpecial then escaping.overStars .contains "%" content
        else escaping.escape .contains content) = escaping.escape .value pattern := by
  have literal {content : String} (asked : content.toList.map .char = stretches) :
      ∃ pattern, IsLikeOf pattern stretches ∧
        escaping.escape .contains content = escaping.escape .value pattern := by
    obtain ⟨pattern, escaped, isLike⟩ := exists_isLikeOf_text content
    exact ⟨pattern, asked ▸ isLike, escaped⟩
  cases value with
  | number lexeme =>
    obtain ⟨pattern, written⟩ := literal (Option.some.inj known)
    exact ⟨lexeme, pattern, rfl, written⟩
  | text content =>
    obtain ⟨pattern, written⟩ := literal (Option.some.inj known)
    exact ⟨content, pattern, rfl, written⟩
  | pattern content special =>
    cases special with
    | false =>
      obtain ⟨pattern, written⟩ := literal (Option.some.inj known)
      exact ⟨content, pattern, rfl, written⟩
    | true =>
      obtain ⟨pattern, escaped, isLike⟩ := exists_isLikeOf_glob content
      exact ⟨content, pattern, rfl, Option.some.inj known ▸ isLike, escaped⟩
  | list | absent => simp [Value.stretches?] at known

/-- What stands around a value in a pattern: nothing, or a percent sign, which asks for any text. -/
inductive Margin : String → List Stretch → Prop
  | nothing : Margin "" []
  | percent : Margin "%" [.anyText]

namespace Margin

variable {text : String} {stretches : List Stretch}

theorem isLikeOf (margin : Margin text stretches) : IsLikeOf text stretches := by
  cases margin with
  | nothing =>
    intro rest
    simp
  | percent => exact fun _ => rfl

theorem plain (margin : Margin text stretches) : escaping.escape .value text = text := by
  cases margin <;> rfl

end Margin

/-- A comparison by LIKE is written with the literal of a pattern. -/
theorem exists_like {value : Value} {stretches : List Stretch}
    (known : value.stretches? = some stretches) {lead trail : String}
    {before behind : List Stretch} (leads : Margin lead before) (trails : Margin trail behind)
    (field word : String) :
    ∃ literal pattern, IsLiteral '\'' .doubled literal pattern ∧
      readLike pattern.toList = some (before ++ stretches ++ behind) ∧
      like field word lead value trail = .ok (field ++ " " ++ word ++ " " ++ literal) := by
  obtain ⟨content, pattern, text, isLike, body⟩ := exists_isLikeOf known
  have written : likePattern lead value trail =
      .ok ("'" ++ lead ++ escaping.escape .value pattern ++ trail ++ "'") := by
    simp [likePattern, text, body, Except.orDefect, bind, Except.bind, pure, Except.pure]
  have around : "'" ++ lead ++ escaping.escape .value pattern ++ trail ++ "'" =
      "'" ++ escaping.escape .value (lead ++ pattern ++ trail) ++ "'" := by
    simp only [Escaping.escape_append, leads.plain, trails.plain, String.append_assoc]
  refine ⟨"'" ++ escaping.escape .value (lead ++ pattern ++ trail) ++ "'",
    lead ++ pattern ++ trail, .doubled rfl _,
    ((leads.isLikeOf.append isLike).append trails.isLikeOf).read, ?_⟩
  rw [like, written, around]
  rfl

/-- The comparisons of a single value that are written with LIKE. -/
def Likened (operator : Operator) (value : Value) : Prop :=
  operator ∈ [.contains, .startsWith, .endsWith] ∨ operator = .eq ∧ value.isSpecial = true

/-- The operators that are written with LIKE differ in what stands around the value. -/
theorem Likened.exists_margins {operator : Operator} {value : Value}
    (likened : Likened operator value) {field : String} (named : field ≠ "")
    (stretches : List Stretch) :
    operator ∈ Operator.seeking ∧ ∃ lead trail before behind,
      Margin lead before ∧ Margin trail behind ∧
      scalar field operator value = like field "ILIKE" lead value trail ∧
      operator.around stretches = before ++ stretches ++ behind := by
  rcases likened with listed | ⟨rfl, special⟩
  · simp only [List.mem_cons, List.not_mem_nil, or_false] at listed
    rcases listed with rfl | rfl | rfl
    · exact ⟨by simp [Operator.seeking], "%", "%", _, _, .percent, .percent,
        by simp [scalar, named], by simp [Operator.around]⟩
    · exact ⟨by simp [Operator.seeking], "", "%", _, _, .nothing, .percent,
        by simp [scalar, named], by simp [Operator.around]⟩
    · exact ⟨by simp [Operator.seeking], "%", "", _, _, .percent, .nothing,
        by simp [scalar, named], by simp [Operator.around]⟩
  · exact ⟨by simp [Operator.seeking], "", "", _, _, .nothing, .nothing,
      by simp [scalar, named, special], by simp [Operator.around]⟩

/-- A search for a single value at the beginning, at the end or inside of a field, and an equality
with one that has wildcards, is written with the literal of a pattern of LIKE. The literal is read
as the pattern and ends at its last character. The pattern asks for what the value asks for, each
character that is no wildcard for itself, with any text in front of it or behind it as the
operator says. So it matches the texts of which the comparison holds. -/
theorem scalar_like_meaning (field : String) (operator : Operator) (value : Value)
    (stretches : List Stretch) (named : field ≠ "") (known : value.stretches? = some stretches)
    (likened : Likened operator value) :
    ∃ literal pattern, scalar field operator value = .ok (field ++ " ILIKE " ++ literal) ∧
      IsLiteral '\'' .doubled literal pattern ∧
      readLike pattern.toList = some (operator.around stretches) ∧
      ∀ subject, Fits (operator.around stretches) subject ↔
        operator.Holds value (some subject) := by
  obtain ⟨seeks, lead, trail, before, behind, leads, trails, own, around⟩ :=
    likened.exists_margins named stretches
  obtain ⟨literal, pattern, isLiteral, read, written⟩ :=
    exists_like known leads trails field "ILIKE"
  refine ⟨literal, pattern, ?_, isLiteral, around ▸ read, fun subject => ?_⟩
  · have word : " ILIKE " = " " ++ "ILIKE" ++ " " := by decide
    rw [own, written, word]
    simp only [String.append_assoc]
  · simp [Operator.holds_iff_around seeks known]

/-- The theorem at a search for a value with a wildcard and with every mark: its percent sign, its
underscore, its backslash and its quote ask for themselves. -/
theorem scalar_like_meaning_marks :
    let value := Value.pattern "a'*%_\\" true
    let stretches : List Stretch :=
      [.char 'a', .char '\'', .anyText, .char '%', .char '_', .char '\\']
    "f" ≠ "" ∧ value.stretches? = some stretches ∧ Likened .contains value ∧
    scalar "f" .contains value = .ok "f ILIKE '%a''%\\%\\_\\\\%'" ∧
    (∃ pattern, IsLiteral '\'' .doubled "'%a''%\\%\\_\\\\%'" pattern ∧
      readLike pattern.toList = some (.anyText :: (stretches ++ [.anyText]))) ∧
    Operator.contains.Holds value (some "xa'y%_\\z".toList) := by
  intro value stretches
  have named : "f" ≠ "" := by decide
  have known : value.stretches? = some stretches := by decide
  have likened : Likened .contains value := .inl (by simp)
  have written : scalar "f" .contains value = .ok "f ILIKE '%a''%\\%\\_\\\\%'" := rfl
  obtain ⟨literal, pattern, own, isLiteral, read, meaning⟩ :=
    scalar_like_meaning "f" .contains value stretches named known likened
  have same : "f ILIKE " ++ literal = "f ILIKE " ++ "'%a''%\\%\\_\\\\%'" :=
    Except.ok.inj (own.symm.trans written)
  obtain rfl := (String.append_right_inj _).mp same
  exact ⟨named, known, likened, written, ⟨pattern, isLiteral, read⟩, (meaning _).mp (by decide)⟩

end Hunters

end Detection

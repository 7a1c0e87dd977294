import Detection.Proofs.RenderedLiterals
import Detection.Proofs.WildcardEnds
import Mathlib.Algebra.Group.Nat.Even

/-!
# Regular expressions in rendered queries

Three platforms write a regular expression between marks and put a backslash in front of each mark
in it. Its own backslashes stay as they are, since they belong to the expression. So a mark that
had a backslash of its own gets a second one, and two backslashes stand for one in front of a
bare mark, which ends the literal there. In the same way a backslash at the end of the expression
takes the closing mark with it.

What counts is how many backslashes stand right in front of a mark or of the end. The literal ends
at its last character exactly if that number is even at each of these places.
-/
namespace Detection

open Text Lexer

/-- The number of backslashes at the end of a text. -/
def trailingBackslashes (text : List Char) : Nat :=
  (text.reverse.takeWhile (· == '\\')).length

/-- Whether an even number of backslashes stands at the end of a text does not depend on what is in
front of it, if an even number stands at the end of that. -/
theorem even_trailingBackslashes_append {lead : List Char}
    (even : Even (trailingBackslashes lead)) (text : List Char) :
    Even (trailingBackslashes (lead ++ text)) ↔ Even (trailingBackslashes text) := by
  rw [trailingBackslashes, trailingBackslashes, List.reverse_append, List.takeWhile_append]
  split
  · next all =>
    -- The whole text is made of backslashes, so that those in front of it count as well.
    have front : Even (lead.reverse.takeWhile (· == '\\')).length := even
    rw [List.length_append, ← all, Nat.even_add, iff_true_right front]
  · exact Iff.rfl

/-- An even number of backslashes stands right in front of each mark of a text and of its end. -/
def Delimited (mark : Char) (text : List Char) : Prop :=
  ∀ place ≤ text.length, text[place]? = none ∨ text[place]? = some mark →
    Even (trailingBackslashes (text.take place))

instance (mark : Char) (text : List Char) : Decidable (Delimited mark text) :=
  inferInstanceAs (Decidable (∀ place ≤ text.length, text[place]? = none ∨
    text[place]? = some mark → Even (trailingBackslashes (text.take place))))

namespace Delimited

variable {mark c : Char} {lead rest : List Char}

/-- The front of a text can be left out, if it has no mark behind an odd number of backslashes and
does not end in an odd number of them. -/
theorem append_iff (even : Even (trailingBackslashes lead))
    (inside : ∀ place < lead.length, lead[place]? = some mark →
      Even (trailingBackslashes (lead.take place))) :
    Delimited mark (lead ++ rest) ↔ Delimited mark rest := by
  constructor
  · intro delimited place bounded atMark
    have whole : lead.length + place ≤ (lead ++ rest).length := by
      rw [List.length_append]
      omega
    have later := delimited (lead.length + place) whole
    rw [List.getElem?_append_right (by omega), Nat.add_sub_cancel_left, List.take_length_add_append,
      even_trailingBackslashes_append even] at later
    exact later atMark
  · intro delimited place bounded atMark
    rw [List.length_append] at bounded
    by_cases early : place < lead.length
    · rw [List.getElem?_append_left early] at atMark
      rw [List.take_append_of_le_length (by omega)]
      rcases atMark with none | found
      · rw [List.getElem?_eq_none_iff] at none
        omega
      · exact inside place early found
    · obtain ⟨later, rfl⟩ := Nat.exists_eq_add_of_le (Nat.le_of_not_lt early)
      rw [List.getElem?_append_right (by omega), Nat.add_sub_cancel_left] at atMark
      rw [List.take_length_add_append, even_trailingBackslashes_append even]
      exact delimited later (by omega) atMark

/-- Nothing is delimited. -/
theorem nil : Delimited mark [] := by
  intro place _ _
  simp [trailingBackslashes]

theorem cons_iff (plain : c ≠ '\\') : Delimited mark (c :: rest) ↔ Delimited mark rest := by
  refine @append_iff mark [c] rest (by simp [trailingBackslashes, plain]) ?_
  intro place bounded _
  obtain rfl : place = 0 := by simpa using bounded
  simp [trailingBackslashes]

theorem not_backslash : ¬ Delimited mark ['\\'] := by
  intro delimited
  have closing := delimited 1 (by simp) (.inl rfl)
  simp [trailingBackslashes] at closing

/-- A backslash and the character behind it can be left out, unless that is a mark. -/
theorem backslash_iff :
    Delimited mark ('\\' :: c :: rest) ↔ c ≠ mark ∧ Delimited mark rest := by
  have even : Even (trailingBackslashes ['\\', c]) := by
    by_cases same : c = '\\'
    · subst same
      decide
    · simp [trailingBackslashes, same]
  have inner (other : c ≠ mark) :=
    @append_iff mark ['\\', c] rest even (by
      intro place bounded found
      have first : place = 0 ∨ place = 1 := by
        simp only [List.length_cons, List.length_nil] at bounded
        omega
      rcases first with rfl | rfl
      · simp [trailingBackslashes]
      · exact absurd (Option.some.inj found) other)
  constructor
  · intro delimited
    have other : c ≠ mark := by
      rintro rfl
      have odd := delimited 1 (by simp) (.inr rfl)
      simp [trailingBackslashes] at odd
    exact ⟨other, (inner other).mp delimited⟩
  · rintro ⟨other, delimited⟩
    exact (inner other).mpr delimited

end Delimited

/-- A literal with backslashes is closed by its last character and not before. -/
def ClosesAtEnd (mark : Char) (literal : String) : Prop :=
  ∃ body, readLiteral mark .escaped literal.toList = some (body, [])

/-- A text with a backslash in front of each mark. -/
def markEscaped (mark : Char) (text : List Char) : List Char :=
  text.flatMap fun c => if c = mark then ['\\', c] else [c]

/-- A regular expression between two marks, with a backslash in front of each mark in it. -/
def regexLiteral (mark : Char) (content : String) : String :=
  String.singleton mark ++ String.ofList (markEscaped mark content.toList) ++
    String.singleton mark

section Reading

variable {mark c : Char} {rest behind : List Char}

/-- Reading goes on behind a backslash and the next character. -/
theorem readBackslashed_backslash :
    (∃ body, readBackslashed mark ('\\' :: c :: rest) = some (body, behind)) ↔
      ∃ body, readBackslashed mark rest = some (body, behind) := by
  rw [readBackslashed]
  rcases readBackslashed mark rest with _ | ⟨text, left⟩ <;> simp

/-- Reading goes on behind a character that is neither a backslash nor the mark. -/
theorem readBackslashed_plain (plain : c ≠ '\\') (other : c ≠ mark) :
    (∃ body, readBackslashed mark (c :: rest) = some (body, behind)) ↔
      ∃ body, readBackslashed mark rest = some (body, behind) := by
  rw [readBackslashed]
  · rcases readBackslashed mark rest with _ | ⟨text, left⟩ <;> simp [other]
  · exact fun _ _ same => absurd same plain

/-- Reading an escaped text ends at the mark behind it exactly if the text is delimited. -/
theorem readBackslashed_markEscaped (apart : mark ≠ '\\') (text : List Char) :
    (∃ body, readBackslashed mark (markEscaped mark text ++ [mark]) = some (body, [])) ↔
      Delimited mark text := by
  -- A backslash may still wait for its character, so that case is carried along.
  suffices both : ((∃ body, readBackslashed mark (markEscaped mark text ++ [mark]) =
        some (body, [])) ↔ Delimited mark text) ∧
      ((∃ body, readBackslashed mark ('\\' :: (markEscaped mark text ++ [mark])) =
        some (body, [])) ↔ Delimited mark ('\\' :: text)) from both.1
  induction text with
  | nil =>
    constructor
    · exact iff_of_true ⟨[], by simp [markEscaped, readBackslashed]⟩ .nil
    · refine iff_of_false ?_ Delimited.not_backslash
      simp [markEscaped, readBackslashed]
  | cons c rest ih =>
    obtain ⟨ready, waiting⟩ := ih
    by_cases same : c = mark
    · subst same
      have escaped : markEscaped c (c :: rest) = '\\' :: c :: markEscaped c rest := by
        simp [markEscaped]
      rw [escaped]
      constructor
      · rw [Delimited.cons_iff apart, ← ready]
        exact readBackslashed_backslash
      · refine iff_of_false ?_ fun delimited => (Delimited.backslash_iff.mp delimited).1 rfl
        -- The two backslashes belong together, and the mark behind them ends the literal.
        simp [readBackslashed, apart]
    · have kept : markEscaped mark (c :: rest) = c :: markEscaped mark rest := by
        simp [markEscaped, same]
      rw [kept]
      constructor
      · by_cases backslash : c = '\\'
        · subst backslash
          exact waiting
        · rw [Delimited.cons_iff backslash, ← ready]
          exact readBackslashed_plain backslash same
      · rw [Delimited.backslash_iff, ← ready]
        exact readBackslashed_backslash.trans (and_iff_right same).symm

end Reading

/-- The literal of a regular expression is closed by its last character exactly if the expression
is delimited. -/
theorem closesAtEnd_regexLiteral {mark : Char} (apart : mark ≠ '\\') (content : String) :
    ClosesAtEnd mark (regexLiteral mark content) ↔ Delimited mark content.toList := by
  rw [← readBackslashed_markEscaped apart]
  simp [ClosesAtEnd, regexLiteral, readLiteral]

/-- A comparison is written as the literal of a regular expression, behind something that does not
depend on the expression. -/
def WritesRegex (scalar : String → Operator → Value → Except RenderError String) (mark : Char)
    (field : String) (operator : Operator) : Prop :=
  ∃ lead, ∀ (operand : Value) (content : String), operand.content = .ok content →
    scalar field operator operand = .ok (lead ++ regexLiteral mark content)

/-- Replacing double quotes puts backslashes in front of them. -/
theorem replace_quote (content : String) :
    replace content "\"" "\\\"" = String.ofList (markEscaped '"' content.toList) := by
  have each : ∀ c, (if c = '"' then ['\\', '"'] else [c]) =
      if c = '"' then ['\\', c] else [c] := by
    intro c
    split <;> simp_all
  have replaced := replaceFrom_single '"' ['\\', '"'] content.toList
  simp only [each] at replaced
  exact congrArg String.ofList replaced

section Clauses

variable (field : String) {operator : Operator}
  (compares : operator = .regex ∨ operator = .notRegex)
include compares

theorem Lucene.writesRegex : WritesRegex Lucene.scalar '/' field operator := by
  have regex (operand : Value) (content : String) (text : operand.content = .ok content) :
      Lucene.regex operand = .ok (regexLiteral '/' content) := by
    have escaped : escaping.escape .regex content =
        String.ofList (markEscaped '/' content.toList) := by
      rw [Escaping.escape, Escaping.escapeChars_single rfl, EscapeRule.apply_backslash]
      simp [markEscaped]
    simp only [Lucene.regex, text, Except.orDefect, bind, Except.bind, pure, Except.pure, escaped]
    rfl
  rcases compares with rfl | rfl
  · refine ⟨if field == "" then "" else field ++ ":", fun operand content text => ?_⟩
    rw [scalar, regex operand content text]
    rfl
  · refine ⟨"NOT " ++ if field == "" then "" else field ++ ":", fun operand content text => ?_⟩
    rw [scalar, regex operand content text]
    rfl

theorem Axon.writesRegex : WritesRegex Axon.scalar '"' field operator := by
  have regex (content : String) : Axon.regex content = regexLiteral '"' content := by
    rw [Axon.regex, replace_quote]
    rfl
  have single (operand : Value) (content : String) (text : operand.content = .ok content) :
      scalar field .regex operand =
        .ok ((if field = "" then rawField else field) ++ " matches " ++ regexLiteral '"' content) ∧
      scalar field .notRegex operand = .ok ("NOT " ++
        ((if field = "" then rawField else field) ++ " matches ") ++ regexLiteral '"' content) := by
    by_cases whole : field = "" <;>
      simp [scalar, whole, fieldScalar, matching, regex, text, Except.orDefect, bind, Except.bind,
        pure, Except.pure, String.append_assoc]
  rcases compares with rfl | rfl
  · exact ⟨_, fun operand content text => (single operand content text).1⟩
  · exact ⟨_, fun operand content text => (single operand content text).2⟩

theorem Xql.writesRegex : WritesRegex Xql.scalar '"' field operator := by
  have regex (name symbol : String) (operand : Value) (content : String)
      (text : operand.content = .ok content) : Xql.regex name symbol operand =
        .ok (name ++ " " ++ symbol ++ " " ++ regexLiteral '"' content) := by
    have opened : " \"" = " " ++ String.singleton '"' := by decide
    simp only [Xql.regex, text, Except.orDefect, bind, Except.bind, pure, Except.pure,
      replace_quote, regexLiteral, opened, String.append_assoc]
    rfl
  have single (operand : Value) (content : String) (text : operand.content = .ok content) :
      scalar field .regex operand = .ok ((if field = "" then rawField else field) ++ " " ++ "~=" ++
        " " ++ regexLiteral '"' content) ∧
      scalar field .notRegex operand = .ok ((if field = "" then rawField else field) ++ " " ++
        "!~=" ++ " " ++ regexLiteral '"' content) := by
    by_cases whole : field = "" <;>
      simp [scalar, whole, fieldScalar, regex _ _ operand content text]
  rcases compares with rfl | rfl
  · exact ⟨_, fun operand content text => (single operand content text).1⟩
  · exact ⟨_, fun operand content text => (single operand content text).2⟩

end Clauses

/-- The mark around regular expressions, on the platforms that protect it with backslashes. -/
def Platform.regexMark : Platform → Option Char
  | openSearch => some '/'
  | axon | xql => some '"'
  | splunk | crowdStrike | hunters => none

/-- A comparison of a field with a regular expression, or its complement, is written as something
that does not depend on the expression and a literal of it. Read with backslashes, the literal is
closed by its last character if and only if an even number of backslashes stands right in front of
each mark of the expression and of its end. -/
theorem Platform.regex_closes_iff (platform : Platform) (mark : Char)
    (marked : platform.regexMark = some mark) (repository : Repository) (strict : Bool)
    (field : String) (operator : Operator)
    (compares : operator = .regex ∨ operator = .notRegex) :
    ∃ lead, ∀ (operand : Value) (content : String), operand.content = .ok content →
      (platform.form repository strict).clauses.scalar field operator operand =
        .ok (lead ++ regexLiteral mark content) ∧
      (ClosesAtEnd mark (regexLiteral mark content) ↔ Delimited mark content.toList) := by
  have writes : WritesRegex (platform.form repository strict).clauses.scalar mark field operator ∧
      mark ≠ '\\' := by
    cases platform with
    | openSearch =>
      obtain rfl := Option.some.inj marked
      exact ⟨Lucene.writesRegex field compares, by decide⟩
    | axon =>
      obtain rfl := Option.some.inj marked
      exact ⟨Axon.writesRegex field compares, by decide⟩
    | xql =>
      obtain rfl := Option.some.inj marked
      exact ⟨Xql.writesRegex field compares, by decide⟩
    | splunk => simp [regexMark] at marked
    | crowdStrike => simp [regexMark] at marked
    | hunters => simp [regexMark] at marked
  obtain ⟨⟨lead, written⟩, apart⟩ := writes
  exact ⟨lead, fun operand content text =>
    ⟨written operand content text, closesAtEnd_regexLiteral apart content⟩⟩

/-- The theorem at the complement of an expression with a backslash in front of a letter, with a
bare mark and with two backslashes at its end. -/
theorem Platform.regex_closes_iff_backslashes :
    let form := Platform.openSearch.form (.ofRecords "opensearch" []) false
    let expression := "\\d/\\\\"
    Platform.openSearch.regexMark = some '/' ∧
    (Operator.notRegex = .regex ∨ Operator.notRegex = .notRegex) ∧
    (Value.text expression).content = .ok expression ∧
    form.clauses.scalar "f" .notRegex (.text expression) = .ok "NOT f:/\\d\\/\\\\/" ∧
    ClosesAtEnd '/' "/\\d\\/\\\\/" := by
  intro form expression
  have compares : Operator.notRegex = .regex ∨ Operator.notRegex = .notRegex := .inr rfl
  obtain ⟨lead, written⟩ := Platform.openSearch.regex_closes_iff '/' rfl
    (.ofRecords "opensearch" []) false "f" .notRegex compares
  have closes := (written (.text expression) expression rfl).2.mpr (by decide)
  have literal : regexLiteral '/' expression = "/\\d\\/\\\\/" := by decide
  have shown : Lucene.scalar "f" .notRegex (.text "\\d/\\\\") =
      .ok "NOT f:/\\d\\/\\\\/" := rfl
  exact ⟨rfl, compares, rfl, shown, literal ▸ closes⟩

/-- On each of the platforms a mark with a backslash of its own ends the literal: the rest of the
expression stands behind it. -/
theorem Platform.escaped_mark_ends_regex :
    (Lucene.scalar "f" .regex (.text "a\\/b") = .ok ("f:" ++ "/a\\\\/b/") ∧
      readLiteral '/' .escaped "/a\\\\/b/".toList = some ("a\\".toList, "b/".toList) ∧
      ¬ ClosesAtEnd '/' "/a\\\\/b/") ∧
    Axon.scalar "f" .regex (.text "a\\\"b") = .ok ("f matches " ++ "\"a\\\\\"b\"") ∧
    Xql.scalar "f" .regex (.text "a\\\"b") = .ok ("f ~= " ++ "\"a\\\\\"b\"") ∧
    readLiteral '"' .escaped "\"a\\\\\"b\"".toList = some ("a\\".toList, "b\"".toList) ∧
    ¬ ClosesAtEnd '"' "\"a\\\\\"b\"" := by
  have slash : readLiteral '/' .escaped "/a\\\\/b/".toList =
      some ("a\\".toList, "b/".toList) := by decide
  have quote : readLiteral '"' .escaped "\"a\\\\\"b\"".toList =
      some ("a\\".toList, "b\"".toList) := by decide
  refine ⟨⟨rfl, slash, ?_⟩, rfl, rfl, quote, ?_⟩
  · rintro ⟨body, read⟩
    rw [slash] at read
    simp at read
  · rintro ⟨body, read⟩
    rw [quote] at read
    simp at read

end Detection

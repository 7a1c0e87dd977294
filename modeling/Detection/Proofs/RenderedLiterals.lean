import Detection.Proofs.PlatformCondition

/-!
# Literals in rendered queries

A value that comes from a rule must not end the literal in which it is rendered, or the rest of
it would be read as part of the query. Whether it does is decided by whoever reads the literal,
so the two rules of reading stand here by themselves: with backslashes, where the character
behind one is taken as it is, and with doubled marks, where two marks stand for one. Each
platform keeps to one of them. A literal that it writes is read back as the value, and reading
ends at the last character of the literal whatever stands behind it in the query.
-/
namespace Detection

open Text Lexer

/-- Read a literal behind its opening mark. A backslash makes the next character literal, and the
first other mark ends the literal. The result is the text that the literal denotes and what
stands behind it. -/
def readBackslashed (mark : Char) : List Char → Found (List Char)
  | [] => none
  | '\\' :: c :: rest =>
    (readBackslashed mark rest).map fun (text, behind) => (c :: text, behind)
  | c :: rest =>
    if c = mark then some ([], rest)
    else (readBackslashed mark rest).map fun (text, behind) => (c :: text, behind)

/-- Read a literal behind its opening mark. Two marks denote one, and a lone mark ends the
literal. -/
def readDoubled (mark : Char) : List Char → Found (List Char)
  | [] => none
  | [c] => if c = mark then some ([], []) else none
  | c :: next :: rest =>
    if c ≠ mark then
      (readDoubled mark (next :: rest)).map fun (text, behind) => (c :: text, behind)
    else if next = mark then
      (readDoubled mark rest).map fun (text, behind) => (c :: text, behind)
    else some ([], next :: rest)

/-- Read a literal with its opening mark. -/
def readLiteral (mark : Char) (quoting : Quoting) : List Char → Found (List Char)
  | [] => none
  | c :: rest =>
    if c ≠ mark then none
    else match quoting with
      | .escaped => readBackslashed mark rest
      | .doubled => readDoubled mark rest

/-- A literal denotes a text and ends at its last character, whatever follows it. Only where marks
are doubled must no further mark follow. -/
def IsLiteral (mark : Char) (quoting : Quoting) (literal value : String) : Prop :=
  ∀ rest : List Char, (quoting = .doubled → rest.head? ≠ some mark) →
    readLiteral mark quoting (literal.toList ++ rest) = some (value.toList, rest)

namespace EscapeRule

/-- A text with backslashes in front of marks and backslashes is read back up to the mark behind
it. -/
theorem readBackslashed_apply {symbols : String} {mark : Char} (marked : mark ∈ symbols.toList)
    (backslashed : '\\' ∈ symbols.toList) (apart : mark ≠ '\\') (text rest : List Char) :
    readBackslashed mark ((Escaping.backslash symbols).apply text ++ mark :: rest) =
      some (text, rest) := by
  have stop : readBackslashed mark (mark :: rest) = some ([], rest) := by
    simp [readBackslashed, apart]
  have step : ∀ c others body behind, readBackslashed mark others = some (body, behind) →
      readBackslashed mark ((if c ∈ symbols.toList then ['\\', c] else [c]) ++ others) =
        some ([c] ++ body, behind) := by
    intro c others body behind read
    by_cases symbol : c ∈ symbols.toList
    · simp [symbol, readBackslashed, read]
    · have plain : c ≠ '\\' := fun same => symbol (same ▸ backslashed)
      have inside : c ≠ mark := fun same => symbol (same ▸ marked)
      simp [symbol, readBackslashed, plain, inside, read]
  rw [apply_backslash, read_flatMap step stop, List.flatMap_singleton']

/-- A text with its marks doubled is read back up to the mark behind it. -/
theorem readDoubled_apply (mark : Char) (undone : Bool) (text : List Char) {rest : List Char}
    (ends : rest.head? ≠ some mark) :
    readDoubled mark ((doubled mark undone).apply text ++ mark :: rest) = some (text, rest) := by
  have stop : readDoubled mark (mark :: rest) = some ([], rest) := by
    cases rest with
    | nil => simp [readDoubled]
    | cons next =>
      have other : next ≠ mark := by simpa using ends
      simp [readDoubled, other]
  have step : ∀ c others body behind, readDoubled mark others = some (body, behind) →
      readDoubled mark ((if c == mark then [c, c] else [c]) ++ others) =
        some ([c] ++ body, behind) := by
    intro c others body behind read
    by_cases same : c = mark
    · simp [same, readDoubled, read]
    · cases others with
      | nil => simp [readDoubled] at read
      | cons => simp [same, readDoubled, read]
  rw [apply, read_flatMap step stop, List.flatMap_singleton']

end EscapeRule

namespace IsLiteral

variable {escaping : Escaping} {kind : LiteralKind} {mark : Char}

/-- A literal with backslashes in front of marks and backslashes. -/
theorem backslashed {symbols : String} (rules : escaping.rules kind = [Escaping.backslash symbols])
    (marked : mark ∈ symbols.toList) (backslashed : '\\' ∈ symbols.toList) (apart : mark ≠ '\\')
    (value : String) :
    IsLiteral mark .escaped
      (String.singleton mark ++ escaping.escape kind value ++ String.singleton mark) value := by
  intro rest _
  have read := EscapeRule.readBackslashed_apply marked backslashed apart value.toList rest
  simpa [readLiteral, Escaping.escape, Escaping.escapeChars_single rules] using read

/-- A literal with its marks doubled. -/
theorem doubled {undone : Bool} (rules : escaping.rules kind = [.doubled mark undone])
    (value : String) :
    IsLiteral mark .doubled
      (String.singleton mark ++ escaping.escape kind value ++ String.singleton mark) value := by
  intro rest ends
  have read := EscapeRule.readDoubled_apply mark undone value.toList (ends rfl)
  simpa [readLiteral, Escaping.escape, Escaping.escapeChars_single rules] using read

end IsLiteral

/-- A value that is a text: also a pattern whose stars are no wildcards is one. -/
def Value.IsText (operand : Value) (content : String) : Prop :=
  operand = .text content ∨ operand = .pattern content false

section Equality

variable {field content : String} {operand : Value}

theorem Spl.scalar_text (platform : String) (named : field ≠ "") (isText : operand.IsText content) :
    Spl.scalar platform field .eq operand =
      .ok (field ++ "=" ++ ("\"" ++ Spl.escaping.escape .doubleQuoted content ++ "\"")) := by
  rcases isText with rfl | rfl <;>
    simp [scalar, named, quoted, Value.content, Value.plain?, Except.orDefect, bind, Except.bind,
      pure, Except.pure]

theorem Axon.scalar_text (named : field ≠ "") (isText : operand.IsText content) :
    Axon.scalar field .eq operand =
      .ok (field ++ " = " ++ ("\"" ++ Axon.escaping.escape .value content ++ "\"")) := by
  rcases isText with rfl | rfl <;>
    simp [scalar, named, fieldScalar, quoted, Value.content, Value.plain?, Value.isSpecial,
      Except.orDefect, bind, Except.bind, pure, Except.pure]

theorem Lucene.scalar_text (named : field ≠ "") (isText : operand.IsText content) :
    Lucene.scalar field .eq operand =
      .ok (field ++ ":" ++ ("\"" ++ Lucene.escaping.escape .doubleQuoted content ++ "\"")) := by
  rcases isText with rfl | rfl <;>
    simp [scalar, named, Lucene.plain, quoted, Value.content, Value.plain?, Value.isSpecial,
      Except.orDefect, bind, Except.bind, pure, Except.pure]

theorem Xql.scalar_text (named : field ≠ "") (isText : operand.IsText content) :
    Xql.scalar field .eq operand =
      .ok (field ++ " = " ++ ("\"" ++ Xql.escaping.escape .value content ++ "\"")) := by
  rcases isText with rfl | rfl <;>
    simp [scalar, named, fieldScalar, compared, literal, Value.literal, Value.isSpecial,
      Except.orDefect, bind, Except.bind, pure, Except.pure, String.append_assoc]

theorem Hunters.scalar_text (named : field ≠ "") (isText : operand.IsText content) :
    Hunters.scalar field .eq operand =
      .ok (field ++ " = " ++ ("'" ++ Hunters.escaping.escape .value content ++ "'")) := by
  rcases isText with rfl | rfl <;>
    simp [scalar, named, compared, literal, Value.literal, Value.isSpecial,
      Except.orDefect, bind, Except.bind, pure, Except.pure, String.append_assoc]

end Equality

namespace Platform

/-- The mark around the literals of a platform. -/
def mark : Platform → Char
  | hunters => '\''
  | splunk | crowdStrike | axon | openSearch | xql => '"'

/-- How the literals of a platform protect their mark. -/
def quoting : Platform → Quoting
  | hunters => .doubled
  | splunk | crowdStrike | axon | openSearch | xql => .escaped

/-- What stands between the field and the value of an equality. -/
def sign : Platform → String
  | splunk | crowdStrike => "="
  | openSearch => ":"
  | axon | xql | hunters => " = "

end Platform

/-- A comparison with a text is that with a single value, also behind lists around the text. -/
theorem Clauses.comparison_text (clauses : Clauses) (words : Words) (field : String)
    (operator : Operator) {operand : Value} {content : String}
    (isText : operand.unwrapped.IsText content) :
    clauses.comparison words field operator operand =
      clauses.scalar field operator operand.unwrapped := by
  rcases isText with same | same <;> simp only [comparison, same]

/-- An equality of a field with a text is written as the field, a sign and a literal that denotes
the text: reading the literal by the rule of the platform gives the text back and ends at the
last character of the literal, whatever the text is. -/
theorem Platform.equality_closes_literal (platform : Platform) (repository : Repository)
    (strict : Bool) (field value : String) (named : field ≠ "") :
    ∃ literal, IsLiteral platform.mark platform.quoting literal value ∧
      ∀ operand : Value, operand.unwrapped.IsText value →
        (platform.form repository strict).clauses.comparison
            (platform.form repository strict).words field .eq operand =
          .ok (field ++ platform.sign ++ literal) := by
  have written {clauses : Clauses} {words : Words} {sign literal : String}
      (scalar : ∀ {operand : Value}, operand.IsText value →
        clauses.scalar field .eq operand = .ok (field ++ sign ++ literal)) :
      ∀ operand : Value, operand.unwrapped.IsText value →
        clauses.comparison words field .eq operand = .ok (field ++ sign ++ literal) := by
    intro operand isText
    rw [clauses.comparison_text words field .eq isText, scalar isText]
  cases platform with
  | splunk =>
    exact ⟨_, .backslashed rfl (by decide) (by decide) (by decide) value,
      written (Spl.scalar_text "splunk" named)⟩
  | crowdStrike =>
    exact ⟨_, .backslashed rfl (by decide) (by decide) (by decide) value,
      written (Spl.scalar_text "crowdstrike" named)⟩
  | axon =>
    exact ⟨_, .backslashed rfl (by decide) (by decide) (by decide) value,
      written (Axon.scalar_text named)⟩
  | openSearch =>
    exact ⟨_, .backslashed rfl (by decide) (by decide) (by decide) value,
      written (Lucene.scalar_text named)⟩
  | xql =>
    exact ⟨_, .backslashed rfl (by decide) (by decide) (by decide) value,
      written (Xql.scalar_text named)⟩
  | hunters => exact ⟨_, .doubled rfl value, written (Hunters.scalar_text named)⟩

/-- The theorem on Cortex at a star, a quote and a backslash, and on Hunters at a quote and a
backslash in a list of one. -/
theorem Platform.equality_closes_literal_marks :
    let xql := Platform.xql.form (.ofRecords "cortex_xql" []) false
    let hunters := Platform.hunters.form (.ofRecords "hunters" []) false
    "f" ≠ "" ∧
    xql.clauses.comparison xql.words "f" .eq (.text "*\"\\") = .ok "f = \"\\*\\\"\\\\\"" ∧
    IsLiteral '"' .escaped "\"\\*\\\"\\\\\"" "*\"\\" ∧
    hunters.clauses.comparison hunters.words "f" .eq (.list [.text "'\\"]) = .ok "f = '''\\'" ∧
    IsLiteral '\'' .doubled "'''\\'" "'\\" := by
  intro xql hunters
  have named : "f" ≠ "" := by decide
  have starred : xql.clauses.comparison xql.words "f" .eq (.text "*\"\\") =
      .ok "f = \"\\*\\\"\\\\\"" := rfl
  have listed : hunters.clauses.comparison hunters.words "f" .eq (.list [.text "'\\"]) =
      .ok "f = '''\\'" := rfl
  obtain ⟨first, firstRead, firstWritten⟩ := Platform.xql.equality_closes_literal
    (.ofRecords "cortex_xql" []) false "f" "*\"\\" named
  obtain ⟨second, secondRead, secondWritten⟩ := Platform.hunters.equality_closes_literal
    (.ofRecords "hunters" []) false "f" "'\\" named
  have firstText : "f = " ++ first = "f = " ++ "\"\\*\\\"\\\\\"" :=
    Except.ok.inj ((firstWritten (.text "*\"\\") (.inl rfl)).symm.trans starred)
  have secondText : "f = " ++ second = "f = " ++ "'''\\'" :=
    Except.ok.inj ((secondWritten (.list [.text "'\\"]) (.inl rfl)).symm.trans listed)
  obtain rfl := (String.append_right_inj _).mp firstText
  obtain rfl := (String.append_right_inj _).mp secondText
  exact ⟨named, starred, firstRead, listed, secondRead⟩

end Detection

import Detection.Lexer
import Detection.Proofs.ConditionTokens

/-!
# Reading a text piece by piece

The lexer walks a text from left to right, and where a piece ends depends on what
stands behind it. A piece is known by the tokens that it gives in front of every text
that begins at a boundary: at the end, at white space or at a closing parenthesis.
Pieces of that kind can be put together with blanks, with words for connectives and
with parentheses, so that a written condition can be read if its clauses can.
-/
namespace Detection

open Text Lexer

variable {dialect : Dialect} {rest : List Char} {c : Char}

/-- The longest beginning in a class is found where a character outside it follows. -/
theorem spanOf_append {accepts : Char → Bool} {text : List Char}
    (inside : ∀ c ∈ text, accepts c = true) (outside : ∀ c ∈ rest.head?, accepts c = false) :
    spanOf accepts (text ++ rest) = (text, rest) := by
  rw [spanOf, List.takeWhile_append_of_pos inside, List.dropWhile_append_of_pos inside]
  cases rest with
  | nil => simp
  | cons c =>
    have stops : accepts c = false := outside c rfl
    simp [stops]

/-- A name is found where a character that cannot continue it follows. -/
theorem name_append {starts continues : Char → Bool} {first : Char} {others : List Char}
    (begins : starts first = true) (inside : ∀ c ∈ others, continues c = true)
    (ends : ∀ c ∈ rest.head?, continues c = false) :
    name? starts continues (first :: (others ++ rest)) = some (first :: others, rest) := by
  rw [name?, if_pos begins, spanOf_append inside ends]

/-- A word takes its own letters from a text, in some letter case. -/
theorem wordRest_taken {fold : Bool} {word text : List Char} (solid : ' ' ∉ word)
    (found : wordRest? fold word text = some rest) :
    ∃ taken, text = taken ++ rest ∧ taken.map foldKey = word.map foldKey := by
  induction word generalizing text with
  | nil => exact ⟨[], by simpa [wordRest?] using found, rfl⟩
  | cons letter word ih =>
    obtain ⟨visible, others⟩ := not_or.mp (mt List.mem_cons.mpr solid)
    cases text with
    | nil => simp [wordRest?, Ne.symm visible] at found
    | cons c text =>
      by_cases same : (if fold then foldKey c == foldKey letter else c == letter) = true
      · have behind : wordRest? fold word text = some rest := by
          simpa [wordRest?, Ne.symm visible, same] using found
        have folded : foldKey c = foldKey letter := by
          cases fold with
          | false => exact congrArg foldKey (by simpa using same)
          | true => simpa using same
        obtain ⟨taken, rfl, rest⟩ := ih others behind
        exact ⟨c :: taken, rfl, by simp [folded, rest]⟩
      · simp [wordRest?, Ne.symm visible, same] at found

namespace Dialect

theorem tokensFrom_nil : dialect.tokensFrom [] = .ok [] := by
  rw [tokensFrom]
  rfl

/-- White space in front of a text that can be read is skipped. -/
theorem tokensFrom_gap (gap : isGap c = true) {text : List Char} {tokens : List Token}
    (read : dialect.tokensFrom text = .ok tokens) :
    dialect.tokensFrom (c :: text) = .ok tokens := by
  rw [tokensFrom] at read ⊢
  rw [List.dropWhile_cons_of_pos gap]
  cases start : text.dropWhile isGap with
  | nil => simpa [start] using read
  | cons head tail =>
    cases stepped : dialect.step (head :: tail) with
    | error stop => simp [start, stepped] at read
    | ok found =>
      simp only [start, stepped] at read ⊢
      split at read
      · next shorter =>
        have longer : found.2.length < (c :: text).length := by
          rw [List.length_cons]
          omega
        simpa only [longer, ↓reduceIte] using read
      · contradiction

/-- A step of the walk and the tokens behind it. -/
theorem tokensFrom_step (visible : isGap c = false) {text : List Char}
    {tokens others : List Token} (stepped : dialect.step (c :: text) = .ok (tokens, rest))
    (shorter : rest.length < (c :: text).length) (read : dialect.tokensFrom rest = .ok others) :
    dialect.tokensFrom (c :: text) = .ok (tokens ++ others) := by
  rw [tokensFrom, List.dropWhile_cons_of_neg (by simp [visible])]
  simp only [stepped, shorter, ↓reduceIte, read]

/-- Where a step fails, reading does. -/
theorem tokensFrom_stop (visible : isGap c = false) {text : List Char} {stop : LexStop}
    (stepped : dialect.step (c :: text) = .error stop) :
    dialect.tokensFrom (c :: text) = .error stop := by
  rw [tokensFrom, List.dropWhile_cons_of_neg (by simp [visible])]
  simp only [stepped]

/-- The text is read as the tokens wherever a boundary follows it. -/
def ReadsAs (dialect : Dialect) (text : List Char) (tokens : List Token) : Prop :=
  ∀ rest others, atBoundary false rest = true → dialect.tokensFrom rest = .ok others →
    dialect.tokensFrom (text ++ rest) = .ok (tokens ++ others)

/-- A word in front of a blank is read as a token. -/
structure Spells (dialect : Dialect) (word : List Char) (token : Token) : Prop where
  visible : ∃ c others, word = c :: others ∧ isGap c = false
  stepped : ∀ rest, dialect.step (word ++ ' ' :: rest) = .ok ([token], ' ' :: rest)

namespace ReadsAs

/-- A blank in front of a piece changes nothing. -/
theorem blank {text : List Char} {tokens : List Token} (reads : dialect.ReadsAs text tokens) :
    dialect.ReadsAs (' ' :: text) tokens := by
  intro rest others boundary read
  exact tokensFrom_gap rfl (reads rest others boundary read)

/-- Two pieces with a blank between them are read one after the other. -/
theorem append {first second : List Char} {tokens others : List Token}
    (firstReads : dialect.ReadsAs first tokens)
    (secondReads : dialect.ReadsAs (' ' :: second) others) :
    dialect.ReadsAs (first ++ ' ' :: second) (tokens ++ others) := by
  intro rest behind boundary read
  have later := secondReads rest behind boundary read
  have whole := firstReads (' ' :: second ++ rest) (others ++ behind) rfl later
  simpa using whole

/-- A word in front of a piece is read as its token. -/
theorem word {word : List Char} {token : Token} (spells : dialect.Spells word token)
    {text : List Char} {tokens : List Token} (reads : dialect.ReadsAs (' ' :: text) tokens) :
    dialect.ReadsAs (word ++ ' ' :: text) (token :: tokens) := by
  intro rest others boundary read
  obtain ⟨c, letters, rfl, visible⟩ := spells.visible
  have stepped := spells.stepped (text ++ rest)
  have later := reads rest others boundary read
  have shorter :
      (' ' :: (text ++ rest)).length < (c :: (letters ++ ' ' :: (text ++ rest))).length := by
    simp only [List.length_cons, List.length_append]
    omega
  have whole := tokensFrom_step visible stepped shorter later
  simpa using whole

/-- A piece between parentheses. -/
theorem enclosed {text : List Char} {tokens : List Token} (reads : dialect.ReadsAs text tokens) :
    dialect.ReadsAs ('(' :: (text ++ [')'])) (.opening :: (tokens ++ [.closing])) := by
  intro rest others boundary read
  have closed : dialect.tokensFrom (')' :: rest) = .ok ([.closing] ++ others) :=
    tokensFrom_step rfl rfl (by simp) read
  have inner := reads (')' :: rest) (.closing :: others) rfl closed
  have whole : dialect.tokensFrom ('(' :: (text ++ ')' :: rest)) =
      .ok ([.opening] ++ (tokens ++ .closing :: others)) :=
    tokensFrom_step rfl rfl (by simp) inner
  simpa using whole

/-- A whole text is read as its tokens. -/
theorem tokensFrom {text : List Char} {tokens : List Token} (reads : dialect.ReadsAs text tokens) :
    dialect.tokensFrom text = .ok tokens := by
  simpa using reads [] [] rfl tokensFrom_nil

end ReadsAs

end Dialect

/-- A language reads the words of a wording as connectives and NOT. -/
structure Wording.Spelt (wording : Wording) (dialect : Dialect) : Prop where
  connective : ∀ connective : Connective,
    dialect.Spells (wording.connective connective).toList connective.token
  negation : dialect.Spells wording.negation.toList .not

namespace Operand

variable {wording : Wording} {read : Leaf → Operand}

/-- A level of operands is read if each operand is. The induction shortens the level
from the left, so that every operand is once the first one. -/
theorem readsAs_level (spelt : wording.Spelt dialect) (connective : Connective)
    (first : Operand) (others : List Operand)
    (each : ∀ operand ∈ first :: others,
      dialect.ReadsAs (operand.text wording).toList (operand.bind read).tokens) :
    dialect.ReadsAs
      (join (" " ++ wording.connective connective ++ " ")
        ((first :: others).map (text wording))).toList
      ((first.bind read).tokens ++ tokensBehind connective (others.map (bind read))) := by
  induction others generalizing first with
  | nil => simpa [join, tokensBehind] using each first List.mem_cons_self
  | cons next others ih =>
    have later := ih next
      fun operand belongs => each operand (List.mem_cons_of_mem _ belongs)
    have worded := (Dialect.ReadsAs.word (spelt.connective connective) later.blank).blank
    have whole := (each first List.mem_cons_self).append worded
    simpa [join, tokensBehind] using whole

/-- An operand is read as the operand that its clauses are read as, if the clauses can
be read. -/
theorem readsAs (spelt : wording.Spelt dialect) (operand : Operand)
    (clauses : ∀ leaf ∈ operand.leaves,
      dialect.ReadsAs (wording.clause leaf).toList (read leaf).tokens) :
    dialect.ReadsAs (operand.text wording).toList (operand.bind read).tokens := by
  induction operand with
  | clause leaf => exact clauses leaf (by simp [leaves])
  | negated operand ih =>
    have inner := ih clauses
    have whole := Dialect.ReadsAs.word spelt.negation inner.blank
    simpa [text, bind, tokens] using whole
  | enclosed connective first others ihFirst ihOthers =>
    have each : ∀ operand ∈ first :: others,
        dialect.ReadsAs (operand.text wording).toList (operand.bind read).tokens := by
      intro operand belongs
      rcases List.mem_cons.mp belongs with rfl | later
      · exact ihFirst fun leaf own => clauses leaf (by simp [leaves, own])
      · refine ihOthers operand later fun leaf own => clauses leaf ?_
        rw [leaves, leavesAll_eq]
        exact List.mem_append_right _ (List.mem_flatMap.mpr ⟨operand, later, own⟩)
    have whole := (readsAs_level spelt connective first others each).enclosed
    simpa [text, textAll_eq, bind, bindAll_eq, tokens] using whole

end Operand

/-- The text of a condition is read as the tokens of the condition that its clauses are
read as, if the clauses can be read. -/
theorem Infix.tokenize_text {wording : Wording} {read : Leaf → Operand}
    (spelt : wording.Spelt dialect) (condition : Infix) (clauses : ∀ leaf ∈ condition.leaves,
      dialect.ReadsAs (wording.clause leaf).toList (read leaf).tokens) :
    dialect.tokenize (condition.text wording) = .ok (condition.bind read).tokens := by
  have each : ∀ operand ∈ condition.operands,
      dialect.ReadsAs (operand.text wording).toList (operand.bind read).tokens := by
    intro operand belongs
    refine operand.readsAs spelt fun leaf own => clauses leaf ?_
    exact List.mem_flatMap.mpr ⟨operand, belongs, own⟩
  have reads := Operand.readsAs_level spelt condition.connective condition.first condition.others
    each
  have read : dialect.tokensFrom (condition.text wording).toList =
      .ok (condition.bind read).tokens := reads.tokensFrom
  simp only [Dialect.tokenize, read, insertImplicitAnds_tokens, ite_self]

end Detection

import Detection.Source

/-!
# Conditions of Sigma rules

A condition combines the selections of a rule by name. NOT binds more tightly
than AND, and AND more tightly than OR. A quantifier stands for all selections
whose names match, joined by OR or by AND. The condition is brought into postfix
order first, so that operands come before what combines them; then each
selection is replaced by its tokens, and parentheses keep the structure.
-/
namespace Detection.Sigma

open Text

/-- The words that combine operands. -/
inductive Junctor
  | not
  | and
  | or
  deriving DecidableEq, Repr

def Junctor.rank : Junctor → Nat
  | not => 3
  | and => 2
  | or => 1

def Junctor.name : Junctor → String
  | not => "not"
  | and => "and"
  | or => "or"

/-- A part of a condition. -/
inductive Term
  | name (name : String)
  | quantified (number target : String)
  | junctor (junctor : Junctor)
  | opening
  | closing
  deriving DecidableEq, Repr

/-- Whether a word can be a quantifier. -/
def isQuantifier (word : String) : Bool :=
  !word.isEmpty && word.toList.all Char.isDigit || equalFold word "all"

def termOf (word : String) : Term :=
  match lower word with
  | "and" => .junctor .and
  | "or" => .junctor .or
  | "not" => .junctor .not
  | "(" => .opening
  | ")" => .closing
  | _ => .name word

def termsOf : List String → List Term
  | word :: next :: target :: rest =>
    if isQuantifier word && equalFold next "of" then
      .quantified (lower word) target :: termsOf rest
    else termOf word :: termsOf (next :: target :: rest)
  | word :: rest => termOf word :: termsOf rest
  | [] => []

def terms (condition : String) : List Term :=
  termsOf (words (String.ofList (condition.toList.flatMap fun c =>
    if c == '(' || c == ')' then [' ', c, ' '] else [c])))

/-- A word or parenthesis that waits for what comes behind it. -/
inductive Waiting
  | junctor (junctor : Junctor)
  | opening
  deriving DecidableEq, Repr

/-- An element of a condition in postfix order. -/
inductive Step
  | name (name : String)
  | quantified (number target : String)
  | apply (junctor : Junctor)
  deriving DecidableEq, Repr

/-- The waiting words that bind at least as tightly as the next one, and those
that go on waiting. -/
def release (next : Junctor) : List Waiting → List Step × List Waiting
  | .junctor junctor :: rest =>
    if next.rank ≤ junctor.rank then
      let (released, kept) := release next rest
      (.apply junctor :: released, kept)
    else ([], .junctor junctor :: rest)
  | waiting => ([], waiting)

/-- The waiting words up to the last opening parenthesis, and what waits behind
it; nothing if there is none. -/
def close : List Waiting → Option (List Step × List Waiting)
  | [] => none
  | .opening :: rest => some ([], rest)
  | .junctor junctor :: rest =>
    (close rest).map fun (released, kept) => (.apply junctor :: released, kept)

/-- All waiting words; nothing if a parenthesis is still open. -/
def finish : List Waiting → Option (List Step)
  | [] => some []
  | .opening :: _ => none
  | .junctor junctor :: rest => (finish rest).map (.apply junctor :: ·)

/-- Bring a condition into postfix order. The error is the parenthesis without a
partner. -/
def postfixFrom (waiting : List Waiting) : List Term → Except Char (List Step)
  | [] =>
    match finish waiting with
    | some released => .ok released
    | none => .error '('
  | .name name :: rest => do return .name name :: (← postfixFrom waiting rest)
  | .quantified number target :: rest => do
    return .quantified number target :: (← postfixFrom waiting rest)
  | .junctor .not :: rest => postfixFrom (.junctor .not :: waiting) rest
  | .junctor junctor :: rest => do
    let (released, kept) := release junctor waiting
    return released ++ (← postfixFrom (.junctor junctor :: kept) rest)
  | .opening :: rest => postfixFrom (.opening :: waiting) rest
  | .closing :: rest =>
    match close waiting with
    | some (released, kept) => do return released ++ (← postfixFrom kept rest)
    | none => .error ')'

/-- The selections of a rule: their tokens by name, and their names in order. A name
that occurs twice has the tokens of its last occurrence. -/
structure Selections where
  tokens : List (String × List Token) := []
  names : List String := []

def Selections.add (selections : Selections) (name : String) (tokens : List Token) : Selections :=
  ⟨putEntry name tokens selections.tokens, selections.names ++ [name]⟩

def enclosed (tokens : List Token) : List Token :=
  .opening :: tokens ++ [.closing]

/-- The selections that a pattern matches: all but the hidden ones, those with a
common beginning, or one. -/
def Selections.matching (selections : Selections) (target : String) : List String :=
  if target == "them" then selections.names.filter fun name => name.toList.head? != some '_'
  else match target.toList.reverse with
    | '*' :: lead => selections.names.filter fun name => startsWith lead.reverse name.toList
    | _ => (selections.names.find? (· == target)).toList

/-- Tokens with a connective between each two groups. -/
def joinTokens (connective : Token) : List (List Token) → List Token
  | [] => []
  | [last] => last
  | first :: next :: others => first ++ connective :: joinTokens connective (next :: others)

/-- The tokens of a quantified group of selections. -/
def quantifiedTokens (condition : String) (selections : Selections) (number target : String) :
    Except DetectionFault (List Token) := do
  let connective ← match number with
    | "all" => pure Token.and
    | "1" => pure Token.or
    | _ => throw (.quantifier condition number target)
  let matched := selections.matching target
  if matched.isEmpty then throw (.noMatch condition target)
  return enclosed (joinTokens connective
    (matched.map fun name => enclosed ((selections.tokens.lookup name).getD [])))

/-- Carry out one step on the operands so far, the last one first. -/
def applyStep (condition : String) (selections : Selections) (operands : List (List Token)) :
    Step → Except DetectionFault (List (List Token))
  | .name name =>
    match selections.tokens.lookup name with
    | some tokens => .ok (enclosed tokens :: operands)
    | none => .error (.unknownSelection condition name)
  | .quantified number target => do
    return (← quantifiedTokens condition selections number target) :: operands
  | .apply .not =>
    match operands with
    | operand :: rest => .ok (enclosed (.not :: operand) :: rest)
    | [] => .error (.notAlone condition)
  | .apply junctor =>
    match operands with
    | second :: first :: rest =>
      .ok (enclosed (first ++ (if junctor = .or then .or else .and) :: second) :: rest)
    | _ => .error (.operandsMissing condition junctor.name)

/-- Replace the names in a condition by their selections. -/
def expand (selections : Selections) (condition : String) : Except DetectionFault (List Token) := do
  let condition := trim condition
  if condition.isEmpty then throw .emptyCondition
  let steps ← (postfixFrom [] (terms condition)).mapError (.unbalanced condition)
  match ← steps.foldlM (applyStep condition selections) [] with
  | [tokens] => return tokens
  | _ => throw (.dangling condition)

end Detection.Sigma

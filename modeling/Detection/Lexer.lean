import Detection.Escape
import Detection.Lexer.Literal
import Detection.Lexer.Wildcard

/-!
# Reading query text

A dialect describes one query language: what its field names look like, which
operators compare a field, which literals a value may be, how the connectives are
spelt, and whether free text may be searched. The lexer walks the text from left
to right and turns it into tokens.

Where a value could be read in several ways, the order is fixed: a regular
expression between slashes, a number, a bare word, a text in double quotes, a
text in single quotes. Every step of the walk leaves a shorter text, and an error
carries the text from the place where reading stopped.
-/
namespace Detection

open Text Lexer

/-- An operator as a dialect spells it. -/
structure OperatorSpelling where
  symbol : String
  operator : Operator
  /-- Whether a list in parentheses follows. -/
  takesList : Bool := false
  /-- The wildcard in the values of this operator, if it is not the dialect's. -/
  wildcard? : Option String := none

/-- Whether an operator is a word. A word needs white space in front of it. -/
def OperatorSpelling.isWord (spelling : OperatorSpelling) : Bool :=
  spelling.symbol.toList.head?.any Char.isAlpha

/-- The description of a query language. -/
structure Dialect where
  /-- Recognises a field name. -/
  field : List Char → Found (List Char)
  /-- The operators; where two of them fit, the first one counts. -/
  operators : List OperatorSpelling
  /-- Whether operators may be written in any letter case. -/
  foldOperators : Bool := false
  /-- The wildcard in values, empty if there is none. -/
  wildcard : String := ""
  /-- The characters of a value without quotes, if there are such values. -/
  bare? : Option (Char → Bool) := none
  /-- Whether values may stand in double quotes. -/
  doubleQuotes : Bool := false
  /-- How values stand in single quotes, if they may. -/
  singleQuotes? : Option Quoting := none
  /-- Whether a regular expression may stand between slashes. -/
  slashes : Bool := false
  /-- The connectives and their spelling. -/
  connectives : List (String × Token)
  /-- Whether connectives may be written in any letter case. -/
  foldConnectives : Bool := true
  /-- Whether free text may be searched. -/
  keywords : Bool := false
  /-- Whether AND may be left out between two operands. -/
  implicitAnd : Bool := false
  escaping : Escaping := .none

/-- Why query text cannot be read. -/
inductive LexFault
  | unexpectedInput
  | missingValue (field : String)
  | unterminatedQuote
  | listExpected
  | invalidListValue
  | unterminatedList
  | separatorExpected
  deriving DecidableEq, Repr

/-- The reason that a message gives for a fault. -/
def LexFault.reason : LexFault → String
  | unexpectedInput => "unexpected input"
  | missingValue field => "missing value for field " ++ quote field
  | unterminatedQuote => "unterminated quoted value"
  | listExpected => "expected '(' after multi-value operator"
  | invalidListValue => "invalid list value"
  | unterminatedList => "unterminated value list"
  | separatorExpected => "expected ',' or ')' in value list"

/-- Where reading stopped: the fault and the text from there on. -/
structure LexStop where
  fault : LexFault
  rest : List Char

/-- A fault with the number of bytes in front of it and the text from there on. -/
structure LexError where
  offset : Nat
  fault : LexFault
  rest : List Char

/-- The number of bytes of the text that a message shows. -/
def LexError.shown : Nat := 24

/-- The message of an error in query text. -/
def LexError.message (error : LexError) : String :=
  s!"lex error at offset {error.offset}: " ++ error.fault.reason ++ " near " ++
    quoteCut LexError.shown error.rest

namespace Dialect

/-- Whether a number or a bare word may end in front of a text. -/
def atBoundary (inList : Bool) : List Char → Bool
  | [] => true
  | c :: _ => isGap c || c == ')' || (c == ',' && inList)

/-- A literal and whether it is a regular expression. -/
structure Literal where
  value : Value
  isRegex : Bool := false

/-- The text of a regular expression between slashes: an escaped slash is one. -/
def slashedText (body : List Char) : Value :=
  .text (String.ofList (replaceChars ['\\', '/'] ['/'] body))

/-- A regular expression between slashes. In a list it counts as plain text. -/
def regexLiteral? (dialect : Dialect) (inList : Bool) (text : List Char) : Found Literal :=
  if dialect.slashes then
    (slashed? text).map fun (body, rest) => (⟨slashedText body, !inList⟩, rest)
  else none

def numberLiteral? (inList : Bool) (text : List Char) : Found Literal :=
  match number? text with
  | some (lexeme, rest) =>
    if atBoundary inList rest then
      match Value.ofNumeral (String.ofList lexeme) with
      | .ok value => some (⟨value, false⟩, rest)
      | .error _ => none
    else none
  | none => none

/-- A bare word that ends at a boundary. -/
def bareWord? (dialect : Dialect) (inList : Bool) (text : List Char) : Found (List Char) :=
  match dialect.bare? with
  | some accepts =>
    let (word, rest) := spanOf accepts text
    if !word.isEmpty && atBoundary inList rest then some (word, rest) else none
  | none => none

def doubleQuoted? (dialect : Dialect) (text : List Char) : Found Literal :=
  if dialect.doubleQuotes then
    (quoted? '"' .escaped text).map fun (body, rest) =>
      (⟨.text (String.ofList (dialect.escaping.unescapeChars .doubleQuoted body)), false⟩, rest)
  else none

def singleQuoted? (dialect : Dialect) (text : List Char) : Found Literal :=
  match dialect.singleQuotes? with
  | some quoting =>
    (quoted? '\'' quoting text).map fun (body, rest) =>
      (⟨.text (String.ofList (dialect.escaping.unescapeChars .singleQuoted body)), false⟩, rest)
  | none => none

/-- A literal in one of the forms of the dialect. -/
def literal? (dialect : Dialect) (inList : Bool) (text : List Char) : Found Literal :=
  dialect.regexLiteral? inList text <|>
  numberLiteral? inList text <|>
  (dialect.bareWord? inList text).map (fun (word, rest) =>
    (⟨.text (String.ofList word), false⟩, rest)) <|>
  dialect.doubleQuoted? text <|>
  dialect.singleQuoted? text

/-- A literal, or nothing where none starts. A quote that starts no literal is an
error. -/
def scalar (dialect : Dialect) (inList : Bool) (text : List Char) :
    Except LexStop (Found Literal) :=
  match dialect.literal? inList text with
  | some found => .ok (some found)
  | none =>
    if text.head? == some '"' || text.head? == some '\'' then
      .error ⟨.unterminatedQuote, text⟩
    else .ok none

/-- The values of a list behind its opening parenthesis. -/
def listItems (dialect : Dialect) (items : List Value) (text : List Char) :
    Except LexStop (List Value × List Char) :=
  match text.dropWhile isGap with
  | ')' :: rest =>
    if items.isEmpty then .ok ([], rest) else .error ⟨.invalidListValue, ')' :: rest⟩
  | start =>
    match dialect.scalar true start with
    | .error stop => .error stop
    | .ok none => .error ⟨.invalidListValue, start⟩
    | .ok (some (literal, rest)) =>
      match rest.dropWhile isGap with
      | [] => .error ⟨.unterminatedList, []⟩
      | ')' :: behind => .ok (items ++ [literal.value], behind)
      | ',' :: behind =>
        if behind.length < text.length then
          dialect.listItems (items ++ [literal.value]) behind
        else .error ⟨.unterminatedList, behind⟩
      | other => .error ⟨.separatorExpected, other⟩
termination_by text.length

def list (dialect : Dialect) : List Char → Except LexStop (List Value × List Char)
  | '(' :: rest => dialect.listItems [] rest
  | text => .error ⟨.listExpected, text⟩

/-- A field with an operator behind it: the field, the operator as written, and
the text behind both and the white space that follows. -/
structure Head where
  field : List Char
  symbol : List Char
  rest : List Char

/-- The first operator of the dialect that stands behind some white space. -/
def symbolAfter? (dialect : Dialect) (spaced : Bool) (text : List Char) : Found (List Char) :=
  dialect.operators.findSome? fun spelling =>
    let symbol := spelling.symbol.toList
    if spelling.isWord then
      if spaced then wholeWord? dialect.foldOperators symbol text else none
    else (symbol.isPrefixOf? text).map fun rest => (symbol, rest)

/-- Read a field and the operator behind it. -/
def head? (dialect : Dialect) (text : List Char) : Option Head :=
  match dialect.field text with
  | none => none
  | some (field, rest) =>
    let behind := rest.dropWhile isSpace
    (dialect.symbolAfter? (behind.length < rest.length) behind).map fun (symbol, after) =>
      ⟨field, symbol, after.dropWhile isSpace⟩

/-- The spelling that an operator has in the dialect's table. A letter that is
only another form of one in the table does not count: such an operator is read
as equality. -/
def spellingOf (dialect : Dialect) (symbol : List Char) : OperatorSpelling :=
  let name := join " " (words (String.ofList symbol))
  let name := if dialect.foldOperators then lower name else name
  (dialect.operators.find? (·.symbol == name)).getD { symbol := "", operator := .eq }

/-- The comparison of a field with a value, under NOT if it stands for the
complement. -/
def comparison (field : List Char) (operator : Operator) (wildcard : String) (value : Value) :
    List Token :=
  let field : Field := { name := trimChar '"' (String.ofList field) }
  match value with
  | .text content =>
    let promotion := promoteWildcards operator content.toList wildcard.toList
    let leaf := Token.leaf
      (.comparison field promotion.operator promotion.value promotion.wildcards)
    if promotion.negate then [.not, .opening, leaf, .closing] else [leaf]
  | .list items =>
    let items := items.map fun
      | .text content => patternValue wildcard.toList content.toList
      | other => other
    [.leaf (.comparison field operator (.list items) {})]
  | other => [.leaf (.comparison field operator other {})]

/-- The comparison of a field with a regular expression. -/
def regexComparison (field : List Char) (operator : Operator) (value : Value) : Token :=
  .leaf (.comparison { name := trimChar '"' (String.ofList field) }
    (if operator == .neq then .notRegex else .regex) value {})

/-- Read a comparison, or nothing where none starts. -/
def comparison? (dialect : Dialect) (text : List Char) : Except LexStop (Found (List Token)) :=
  match dialect.head? text with
  | none => .ok none
  | some head =>
    let spelling := dialect.spellingOf head.symbol
    let wildcard := spelling.wildcard?.getD dialect.wildcard
    if spelling.takesList then do
      let (items, rest) ← dialect.list head.rest
      return some (comparison head.field spelling.operator wildcard (.list items), rest)
    else do
      match ← dialect.scalar false head.rest with
      | none => throw ⟨.missingValue (String.ofList head.field), text⟩
      | some (literal, rest) =>
        if literal.isRegex then
          return some ([regexComparison head.field spelling.operator literal.value], rest)
        else return some (comparison head.field spelling.operator wildcard literal.value, rest)

/-- The search for a text in the whole event. A lone wildcard searches for
nothing. -/
def keyword (dialect : Dialect) (value : Value) : Token :=
  match value with
  | .text content =>
    let promotion := promoteWildcards .eq content.toList dialect.wildcard.toList
    let value := if promotion.operator == .isNotNone then .text "" else promotion.value
    .leaf (.keyword .keyword value promotion.wildcards)
  | other => .leaf (.keyword .keyword other {})

/-- Read a keyword, or nothing where none starts. -/
def keyword? (dialect : Dialect) (text : List Char) : Except LexStop (Found (List Token)) :=
  if text.head? == some '"' || text.head? == some '\'' then do
    let found ← dialect.scalar false text
    return found.map fun (literal, rest) => ([dialect.keyword literal.value], rest)
  else
    match if dialect.slashes then slashed? text else none with
    | some (body, rest) => .ok (some ([.leaf (.keyword .regex (slashedText body) {})], rest))
    | none =>
      .ok ((dialect.bareWord? false text).map fun (word, rest) =>
        ([dialect.keyword (.text (String.ofList word))], rest))

/-- Read a connective. White space, a parenthesis or the end has to follow it. -/
def connective? (dialect : Dialect) (text : List Char) : Found Token :=
  dialect.connectives.findSome? fun (word, token) =>
    match wordRest? dialect.foldConnectives word.toList text with
    | some rest =>
      if rest.head?.all fun c => isSpace c || c == '(' then some (token, rest) else none
    | none => none

/-- Read one token, or the few tokens that one comparison stands for. -/
def step (dialect : Dialect) (text : List Char) : Except LexStop (List Token × List Char) :=
  match text with
  | '(' :: rest => .ok ([.opening], rest)
  | ')' :: rest => .ok ([.closing], rest)
  | _ =>
    match dialect.connective? text with
    | some (token, rest) => .ok ([token], rest)
    | none => do
      match ← dialect.comparison? text with
      | some found => return found
      | none =>
        match ← if dialect.keywords then dialect.keyword? text else .ok none with
        | some found => return found
        | none => throw ⟨.unexpectedInput, text⟩

def tokensFrom (dialect : Dialect) (text : List Char) : Except LexStop (List Token) :=
  match text.dropWhile isGap with
  | [] => .ok []
  | start =>
    match dialect.step start with
    | .error stop => .error stop
    | .ok (tokens, rest) =>
      if rest.length < text.length then
        match dialect.tokensFrom rest with
        | .error stop => .error stop
        | .ok others => .ok (tokens ++ others)
      else .error ⟨.unexpectedInput, start⟩
termination_by text.length

def tokenize (dialect : Dialect) (text : String) : Except LexError (List Token) :=
  match dialect.tokensFrom text.toList with
  | .ok tokens =>
    .ok (if dialect.implicitAnd then Token.insertImplicitAnds tokens else tokens)
  | .error stop =>
    .error ⟨byteLength text.toList - byteLength stop.rest, stop.fault, stop.rest⟩

/-- The connectives in the spelling that most dialects share. -/
def commonConnectives : List (String × Token) :=
  [("or", .or), ("not", .not), ("and", .and)]

/-- The six comparisons that most dialects share, in an order in which none hides
another. -/
def commonComparisons : List OperatorSpelling :=
  [⟨"!=", .neq, false, none⟩, ⟨"<=", .lte, false, none⟩, ⟨">=", .gte, false, none⟩,
    ⟨"<", .lt, false, none⟩, ⟨"=", .eq, false, none⟩, ⟨">", .gt, false, none⟩]

/-- The letters of ASCII and the underscore. -/
def isNameStart (c : Char) : Bool :=
  c.isAlpha || c == '_'

/-- A dialect with the forms that most query languages share. -/
def basic : Dialect where
  field := name? isNameStart fun c => isNameStart c || c.isDigit || c == '.'
  operators := ⟨"in", .eq, true, none⟩ :: commonComparisons
  foldOperators := true
  wildcard := "*"
  bare? := some fun c => !(isSpace c || ['"', '\'', '(', ')', ',', '=', '<', '>', '!'].contains c)
  doubleQuotes := true
  singleQuotes? := some .escaped
  connectives := commonConnectives
  keywords := true
  implicitAnd := true
  escaping := ⟨fun
    | .doubleQuoted => [Escaping.backslash "\\\""]
    | _ => []⟩

end Dialect

end Detection

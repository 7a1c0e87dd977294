import Detection.Text.Quoted
import Detection.Yaml.Lexeme.ScalarText

/-!
# Cutting a YAML text into lexemes

The scanner keeps the indentation of the open blocks and, for every open flow
collection, the place at which a key may have begun: only the colon behind it
tells that it was one, and then the lexemes that open the key are put in front
of it. A key has to be on one line and within 1024 characters of its colon.
-/
namespace Detection.Yaml

open Text

/-- A place at which a key may have begun. It must be one if it stands where the
entries of the current block do. -/
structure KeyCandidate where
  required : Bool
  /-- The number of lexemes before it. -/
  position : Nat
  place : Place
  deriving Repr, Inhabited

/-- The state of the scanner. -/
structure Scanner where
  place : Place := {}
  rest : List Char
  indent : Int := -1
  /-- The indentation of the surrounding blocks, the nearest first. -/
  outer : List Int := []
  /-- The candidates, one for every open flow collection around the one for the block. -/
  candidates : List (Option KeyCandidate) := [none]
  keyAllowed : Bool := true
  /-- The lexemes read so far, the last one first. -/
  lexemes : List PlacedLexeme := []
  deriving Inhabited

namespace Scanner

/-- Whether the scanner is inside a flow collection. -/
def inFlow (scanner : Scanner) : Bool :=
  match scanner.candidates with
  | _ :: _ :: _ => true
  | _ => false

/-- Add a lexeme that starts at a place. -/
def emitAt (scanner : Scanner) (lexeme : Lexeme) (place : Place) : Scanner :=
  { scanner with lexemes := ⟨lexeme, place.line⟩ :: scanner.lexemes }

def emit (scanner : Scanner) (lexeme : Lexeme) : Scanner :=
  scanner.emitAt lexeme scanner.place

/-- Put a lexeme behind the first `position` ones. -/
def insert (scanner : Scanner) (position : Nat) (lexeme : Lexeme) (place : Place) : Scanner :=
  { scanner with
    lexemes := scanner.lexemes.insertIdx (scanner.lexemes.length - position) ⟨lexeme, place.line⟩ }

/-- Step over characters that have been looked at. -/
def skip (scanner : Scanner) (count : Nat) : Scanner :=
  { scanner with
    place := scanner.place.afterAll (scanner.rest.take count)
    rest := scanner.rest.drop count }

/-- Close the blocks that are indented more than a column. -/
def unrollFrom (column : Int) : List Int → Scanner → Scanner
  | [], scanner => scanner
  | next :: others, scanner =>
    if scanner.indent > column then
      unrollFrom column others
        { scanner.emit .blockEnd with indent := next, outer := others }
    else scanner

/-- Close the blocks that are indented more than a column, unless indentation
does not count here. -/
def unroll (scanner : Scanner) (column : Int) : Scanner :=
  if scanner.inFlow then scanner else unrollFrom column scanner.outer scanner

/-- How deep blocks, and how deep flow collections, may be nested. -/
def depthLimit : Nat := 10000

/-- Open a block at a column if it is indented more than the current one. -/
def roll (scanner : Scanner) (column : Nat) (position : Nat) (lexeme : Lexeme) (place : Place) :
    Option Scanner := do
  if !scanner.inFlow && scanner.indent < column then
    guard (scanner.outer.length < depthLimit)
    return { scanner.insert position lexeme place with
      indent := column, outer := scanner.indent :: scanner.outer }
  else return scanner

/-- The candidate for a key at the current level. -/
def candidate? (scanner : Scanner) : Option KeyCandidate :=
  scanner.candidates.headD none

/-- Set the candidate at the current level. -/
def setCandidate (scanner : Scanner) (candidate? : Option KeyCandidate) : Scanner :=
  { scanner with candidates := candidate? :: scanner.candidates.tail }

/-- Give up the candidate, which fails if it had to be a key. -/
def dropCandidate (scanner : Scanner) : Option Scanner :=
  match scanner.candidate? with
  | some candidate => if candidate.required then none else some (scanner.setCandidate none)
  | none => some scanner

/-- Remember that a key may begin here. -/
def saveCandidate (scanner : Scanner) : Option Scanner :=
  if scanner.keyAllowed then
    let candidate : KeyCandidate :=
      { required := !scanner.inFlow && scanner.indent == scanner.place.column
        position := scanner.lexemes.length
        place := scanner.place }
    (scanner.dropCandidate).map (·.setCandidate (some candidate))
  else some scanner

/-- Whether a candidate can still be a key here. -/
def isFresh (scanner : Scanner) (candidate : KeyCandidate) : Bool :=
  candidate.place.line == scanner.place.line &&
    scanner.place.index ≤ candidate.place.index + 1024

/-- How many characters are looked at to see whether a comment comes. -/
def commentReach : Nat := 512

/-- Whether another comment comes behind nothing but white space and line breaks. -/
def commentAhead : Nat → List Char → Bool
  | _, [] => false
  | 0, _ => false
  | reach + 1, c :: rest =>
    c == '#' || (isTabOrSpace c || c == '\n') && commentAhead reach rest

/-- Where the scanner is between two lexemes. -/
inductive GapState
  | blank
  | comment
  /-- Between two comments that follow each other. -/
  | betweenComments

/-- Skip white space, line breaks and comments. A tab is white space only where
no key can begin, or between comments, and a line break in a block lets a key begin. -/
def skipGaps (inFlow : Bool) (state : GapState) (keyAllowed : Bool) (place : Place) :
    List Char → Bool × Place × List Char
  | [] => (keyAllowed, place, [])
  | c :: rest =>
    match state with
    | .betweenComments =>
      skipGaps inFlow (if c == '#' then .comment else state) keyAllowed (place.after c) rest
    | .comment =>
      if !isLineBreak c then skipGaps inFlow state keyAllowed (place.after c) rest
      else if commentAhead commentReach (c :: rest) then
        skipGaps inFlow .betweenComments keyAllowed (place.after c) rest
      else skipGaps inFlow .blank (keyAllowed || !inFlow) (place.after c) rest
    | .blank =>
      if isLineBreak c then skipGaps inFlow state (keyAllowed || !inFlow) (place.after c) rest
      else if c == ' ' || c == '\t' && (inFlow || !keyAllowed) then
        skipGaps inFlow state keyAllowed (place.after c) rest
      else if c == '#' then skipGaps inFlow .comment keyAllowed (place.after c) rest
      else (keyAllowed, place, c :: rest)

def toNext (scanner : Scanner) : Scanner :=
  let (keyAllowed, place, rest) :=
    skipGaps scanner.inFlow .blank scanner.keyAllowed scanner.place scanner.rest
  { scanner with keyAllowed, place, rest }

/-- Whether the last lexeme can have a comment on its line. The marks of entries
and documents have none of their own, and some scalars end on another line. -/
def takesLineComment (scanner : Scanner) : Bool :=
  match scanner.lexemes with
  | ⟨lexeme, _⟩ :: _ =>
    match lexeme with
    | .blockEntry | .documentStart | .documentEnd | .versionDirective .. | .tagDirective ..
    | .scalar _ .literal | .scalar _ .folded => false
    | .scalar _ .plain => !scanner.keyAllowed
    | _ => true
  | [] => false

/-- Skip a comment on the line of the last lexeme, whatever blanks stand before it. -/
def skipLineComment (scanner : Scanner) : Scanner :=
  let blanks := scanner.rest.takeWhile isTabOrSpace
  let behind := scanner.rest.drop blanks.length
  if scanner.takesLineComment && blanks.length < commentReach && behind.head? == some '#' then
    scanner.skip (blanks.length + (behind.takeWhile (!isLineBreak ·)).length)
  else scanner

/-- Close everything that a document leaves open. -/
def closeDocument (scanner : Scanner) : Option Scanner :=
  ((scanner.unroll (-1)).dropCandidate).map ({ · with keyAllowed := false })

/-- `---` or `...`. -/
def documentMark (scanner : Scanner) (lexeme : Lexeme) : Option Scanner := do
  let closed ← scanner.closeDocument
  return (closed.emit lexeme).skip 3

/-- `[` or `{`. -/
def openFlow (scanner : Scanner) (lexeme : Lexeme) : Option Scanner := do
  let saved ← scanner.saveCandidate
  guard (saved.candidates.length ≤ depthLimit)
  return { (saved.emit lexeme).skip 1 with
    candidates := none :: saved.candidates, keyAllowed := true }

/-- `]` or a closing brace. -/
def closeFlow (scanner : Scanner) (lexeme : Lexeme) : Option Scanner := do
  let dropped ← scanner.dropCandidate
  let candidates := match dropped.candidates with
    | _ :: next :: others => next :: others
    | short => short
  return { (dropped.emit lexeme).skip 1 with candidates, keyAllowed := false }

/-- `,`. -/
def flowEntry (scanner : Scanner) : Option Scanner := do
  let dropped ← scanner.dropCandidate
  return { (dropped.emit .flowEntry).skip 1 with keyAllowed := true }

/-- `-` before an entry of a block sequence. -/
def blockEntry (scanner : Scanner) : Option Scanner := do
  guard (scanner.inFlow || scanner.keyAllowed)
  let rolled ← scanner.roll scanner.place.column scanner.lexemes.length .blockSequenceStart
    scanner.place
  let dropped ← rolled.dropCandidate
  return { (dropped.emit .blockEntry).skip 1 with keyAllowed := true }

/-- `?` before a key. -/
def explicitKey (scanner : Scanner) : Option Scanner := do
  guard (scanner.inFlow || scanner.keyAllowed)
  let rolled ← scanner.roll scanner.place.column scanner.lexemes.length .blockMappingStart
    scanner.place
  let dropped ← rolled.dropCandidate
  return { (dropped.emit .key).skip 1 with keyAllowed := !scanner.inFlow }

/-- `:` behind a key that was marked or left out. -/
def valueAlone (scanner : Scanner) : Option Scanner := do
  guard (scanner.inFlow || scanner.keyAllowed)
  let rolled ← scanner.roll scanner.place.column scanner.lexemes.length .blockMappingStart
    scanner.place
  return { (rolled.emit .value).skip 1 with keyAllowed := !scanner.inFlow }

/-- `:` behind the key that a candidate turns out to be. -/
def valueOf (scanner : Scanner) (candidate : KeyCandidate) : Option Scanner := do
  let keyed := scanner.insert candidate.position .key candidate.place
  let rolled ← keyed.roll candidate.place.column candidate.position .blockMappingStart
    candidate.place
  return { ((rolled.setCandidate none).emit .value).skip 1 with keyAllowed := false }

/-- `:` behind a key. -/
def valueMark (scanner : Scanner) : Option Scanner :=
  match scanner.candidate? with
  | none => scanner.valueAlone
  | some candidate =>
    if scanner.isFresh candidate then scanner.valueOf candidate
    else if candidate.required then none
    else (scanner.setCandidate none).valueAlone

/-- The characters of names of anchors, directives and tag handles. -/
def isHandleChar (c : Char) : Bool :=
  c.isAlphanum || c == '_' || c == '-'

/-- The characters of a tag behind its handle. -/
def isTagChar (c : Char) : Bool :=
  isHandleChar c || ";/?:@&=+$,.!~*'()[]%".toList.contains c

/-- How many escapes have to follow the escape of a byte, where `owed` have to come
with it. The first byte of a character tells how many bytes the character has. -/
def owedAfter? (owed : Nat) (byte : UInt8) : Option Nat :=
  match owed with
  | 0 => (LeadByte.ofByte? byte).map (·.tail)
  | more + 1 => if isTailByte byte then some more else none

/-- The bytes of a text in which a percent sign and two digits stand for a byte. The
escapes of the bytes of one character follow each other directly. -/
def percentBytes? (owed : Nat) : List Char → Option (List UInt8)
  | '%' :: h :: l :: rest => do
    let byte := UInt8.ofNat ((← hexValue? h) * 16 + (← hexValue? l))
    return byte :: (← percentBytes? (← owedAfter? owed byte) rest)
  | c :: rest => do
    guard (c != '%' && owed == 0)
    return charBytes c ++ (← percentBytes? 0 rest)
  | [] => if owed == 0 then some [] else none

/-- The text that percent signs and pairs of digits stand for. -/
def decodePercent (text : List Char) : Option (List Char) :=
  (percentBytes? 0 text).map charsOfBytes

/-- `*name` or `&name`. -/
def anchorOrReference (scanner : Scanner) (lexeme : String → Lexeme) : Option Scanner := do
  let saved ← scanner.saveCandidate
  let name := (saved.rest.drop 1).takeWhile isHandleChar
  let behind := (saved.rest.drop 1).drop name.length
  guard (!name.isEmpty)
  guard (atGap behind || behind.head?.any "?:,]\x7d%@`".toList.contains)
  return { (saved.emit (lexeme (String.ofList name))).skip (name.length + 1) with
    keyAllowed := false }

/-- The handle and the rest of a tag, and how many characters they take. -/
def tagParts? (text : List Char) : Option (String × String × Nat) :=
  match text with
  | '!' :: '<' :: rest => do
    let uri := rest.takeWhile isTagChar
    guard (!uri.isEmpty && (rest.drop uri.length).head? == some '>')
    return ("", String.ofList (← decodePercent uri), uri.length + 3)
  | '!' :: rest => do
    let name := rest.takeWhile isHandleChar
    match rest.drop name.length with
    | '!' :: behind =>
      let uri := behind.takeWhile isTagChar
      guard (!uri.isEmpty)
      return (String.ofList ('!' :: name ++ ['!']), String.ofList (← decodePercent uri),
        name.length + uri.length + 2)
    | behind =>
      let uri := behind.takeWhile isTagChar
      let tail := name ++ (← decodePercent uri)
      if tail.isEmpty then return ("", "!", 1)
      else return ("!", String.ofList tail, name.length + uri.length + 1)
  | _ => none

def tagMark (scanner : Scanner) : Option Scanner := do
  let saved ← scanner.saveCandidate
  let (handle, tail, length) ← tagParts? saved.rest
  guard (atGap (saved.rest.drop length))
  return { (saved.emit (.tag handle tail)).skip length with keyAllowed := false }

/-- The end of a line, behind blanks and an optional comment. -/
def lineEnd? (text : List Char) : Option (List Char) :=
  let behind := text.dropWhile isTabOrSpace
  let behind := if behind.head? == some '#' then behind.dropWhile (!isLineBreak ·) else behind
  if behind.head?.all isLineBreak then some (behind.drop 1) else none

/-- A number of one or two digits, as versions have. -/
def versionNumber? (text : List Char) : Option (Nat × List Char) :=
  let digits := text.takeWhile Char.isDigit
  if digits.isEmpty || digits.length > 2 then none
  else some ((String.ofList digits).toNat?.getD 0, text.drop digits.length)

/-- The meaning of a directive, and the text behind its line. -/
def directive? (text : List Char) : Option (Lexeme × List Char) := do
  let name := text.takeWhile isHandleChar
  let behind := text.drop name.length
  guard (!name.isEmpty && atGap behind)
  let argument := behind.dropWhile isTabOrSpace
  if name == "YAML".toList then
    let (major, rest) ← versionNumber? argument
    guard (rest.head? == some '.')
    let (minor, rest) ← versionNumber? (rest.drop 1)
    return (.versionDirective major minor, ← lineEnd? rest)
  else if name == "TAG".toList then
    guard (argument.head? == some '!')
    let word := (argument.drop 1).takeWhile isHandleChar
    let behind := argument.drop (word.length + 1)
    guard (behind.head? == some '!' || word.isEmpty)
    let closing := behind.takeWhile (· == '!') |>.take 1
    let rest := behind.drop closing.length
    guard (rest.head?.any isTabOrSpace)
    let rest := rest.dropWhile isTabOrSpace
    let uri := rest.takeWhile isTagChar
    guard (!uri.isEmpty && atGap (rest.drop uri.length))
    return (.tagDirective (String.ofList ('!' :: word ++ closing))
      (String.ofList (← decodePercent uri)), ← lineEnd? (rest.drop uri.length))
  else none

def directive (scanner : Scanner) : Option Scanner := do
  let closed ← scanner.closeDocument
  let (lexeme, rest) ← directive? (closed.rest.drop 1)
  return (closed.emit lexeme).skip (closed.rest.length - rest.length)

/-- A scalar that has been read from here on. -/
def finishScalar (scanner : Scanner) (style : Style) (keyAllowed : Bool) (read : ScalarRead) :
    Scanner :=
  { scanner.emit (.scalar (String.ofList read.text) style) with
    place := read.place, rest := read.rest, keyAllowed }

def blockScalar (scanner : Scanner) (literal : Bool) : Option Scanner := do
  let dropped ← scanner.dropCandidate
  let behind := dropped.skip 1
  let read ← readBlockScalar literal dropped.indent behind.place behind.rest
  return dropped.finishScalar (if literal then .literal else .folded) true read

def quotedScalar (scanner : Scanner) (single : Bool) : Option Scanner := do
  let saved ← scanner.saveCandidate
  let behind := saved.skip 1
  let read ←
    if single then readSingleQuoted [] {} behind.place behind.rest
    else readDoubleQuoted [] {} .none behind.place behind.rest
  return saved.finishScalar (if single then .singleQuoted else .doubleQuoted) false read

def plainScalar (scanner : Scanner) : Option Scanner := do
  let saved ← scanner.saveCandidate
  let read ← readPlain saved.inFlow (saved.indent + 1) [] {} saved.place saved.rest
  return saved.finishScalar .plain read.broken read

/-- The characters that begin something else than a plain scalar. -/
def indicators : List Char :=
  "-?:,[]\x7b\x7d#&*!|>'\"%@`".toList

/-- Read the lexeme that begins with a character. -/
def lexemeAt (scanner : Scanner) (c : Char) (rest : List Char) : Option Scanner :=
  let atMargin := scanner.place.column == 0
  if atMargin && c == '%' then scanner.directive
  else if atMargin && startsDocumentMark (c :: rest) then
    scanner.documentMark (if c == '-' then .documentStart else .documentEnd)
  else if c == '[' then scanner.openFlow .flowSequenceStart
  else if c == '\x7b' then scanner.openFlow .flowMappingStart
  else if c == ']' then scanner.closeFlow .flowSequenceEnd
  else if c == '\x7d' then scanner.closeFlow .flowMappingEnd
  else if c == ',' then scanner.flowEntry
  else if c == '-' && atGap rest then scanner.blockEntry
  else if c == '?' && (scanner.inFlow || atGap rest) then scanner.explicitKey
  else if c == ':' && (scanner.inFlow || atGap rest) then scanner.valueMark
  else if c == '*' then scanner.anchorOrReference .reference
  else if c == '&' then scanner.anchorOrReference .anchor
  else if c == '!' then scanner.tagMark
  else if c == '|' && !scanner.inFlow then scanner.blockScalar true
  else if c == '>' && !scanner.inFlow then scanner.blockScalar false
  else if c == '\'' then scanner.quotedScalar true
  else if c == '"' then scanner.quotedScalar false
  else if !(indicators.contains c || c == '\t') || c == '-' ||
      (c == '?' || c == ':') && !scanner.inFlow then
    scanner.plainScalar
  else none

/-- Read the next lexeme, or close the document at the end of the text. -/
def next (scanner : Scanner) : Option Scanner :=
  let ahead := scanner.toNext
  let unrolled := ahead.unroll ahead.place.column
  match unrolled.rest with
  | [] => (unrolled.closeDocument).map (·.emit .streamEnd)
  | c :: rest => (unrolled.lexemeAt c rest).map skipLineComment

/-- All lexemes of a text, and whether it could be read to its end. -/
def scanFrom (scanner : Scanner) : List PlacedLexeme × Bool :=
  match scanner.next with
  | none => (scanner.lexemes.reverse, false)
  | some further =>
    if further.rest.length < scanner.rest.length then scanFrom further
    else (further.lexemes.reverse, further.rest.isEmpty)
termination_by scanner.rest.length

end Scanner

/-- The lexemes of a YAML text. -/
structure Scanned where
  lexemes : List PlacedLexeme
  /-- Whether the text could be read to its end. -/
  complete : Bool

/-- Cut a text into lexemes. A text with a character that no document may hold
has none. -/
def scan (text : List Char) : Scanned :=
  let text := if text.head? == some '\ufeff' then text.drop 1 else text
  if text.all isAllowed then
    let (lexemes, complete) := Scanner.scanFrom { rest := unifyBreaks text }
    ⟨lexemes, complete⟩
  else ⟨[], false⟩

end Detection.Yaml

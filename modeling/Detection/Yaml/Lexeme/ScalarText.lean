import Detection.Text.Numeral
import Detection.Text.Utf8
import Detection.Yaml.Lexeme

/-!
# The text of YAML scalars

Plain and quoted scalars may go over several lines. A single line break between
two pieces of text is then read as a space, and further empty lines as line
feeds. Block scalars keep their lines; the folded ones join neighbouring lines
that do not begin with white space.
-/
namespace Detection.Yaml

open Text

/-- White space that was read but not yet given to the scalar: blanks on one
line, or line breaks, the first of them apart. -/
structure Gap where
  blanks : List Char := []
  broken : Bool := false
  firstBreak : Option Char := none
  otherBreaks : List Char := []
  deriving Repr, Inhabited

namespace Gap

/-- Another blank; those around a line break are dropped. -/
def addBlank (gap : Gap) (c : Char) : Gap :=
  if gap.broken then gap else { gap with blanks := c :: gap.blanks }

def addBreak (gap : Gap) (c : Char) : Gap :=
  if gap.broken then { gap with otherBreaks := c :: gap.otherBreaks }
  else { blanks := [], broken := true, firstBreak := some c, otherBreaks := gap.otherBreaks }

/-- What the gap contributes to the scalar, last character first. -/
def folded (gap : Gap) : List Char :=
  if gap.broken then
    if gap.firstBreak == some '\n' then
      if gap.otherBreaks.isEmpty then [' '] else gap.otherBreaks
    else gap.otherBreaks ++ gap.firstBreak.toList
  else gap.blanks

def isEmpty (gap : Gap) : Bool :=
  gap.blanks.isEmpty && !gap.broken

end Gap

/-- A scalar that has been read, whether a line break was read behind or inside
its last gap, and where reading goes on. -/
structure ScalarRead where
  text : List Char
  broken : Bool := false
  place : Place
  rest : List Char

/-- Whether a plain scalar ends before a character. -/
def endsPlain (inFlow : Bool) (c : Char) (rest : List Char) : Bool :=
  c == ':' && atGap rest || inFlow && [',', '?', '[', ']', '{', '}'].contains c

/-- Read a plain scalar. `indent` is the least column at which it may continue on
another line. -/
def readPlain (inFlow : Bool) (indent : Int) (read : List Char) (gap : Gap) (place : Place) :
    List Char → Option ScalarRead
  | [] => some ⟨read.reverse, gap.broken, place, []⟩
  | c :: rest =>
    if isLineBreak c then readPlain inFlow indent read (gap.addBreak c) (place.after c) rest
    else if isTabOrSpace c then
      if gap.broken && (place.column : Int) < indent && c == '\t' then none
      else readPlain inFlow indent read (gap.addBlank c) (place.after c) rest
    else if !gap.isEmpty && (!inFlow && (place.column : Int) < indent ||
        place.column == 0 && startsDocumentMark (c :: rest) || c == '#') ||
        endsPlain inFlow c rest then
      some ⟨read.reverse, gap.broken, place, c :: rest⟩
    else readPlain inFlow indent (c :: (gap.folded ++ read)) {} (place.after c) rest

/-- Read a single-quoted scalar behind its first quote. -/
def readSingleQuoted (read : List Char) (gap : Gap) (place : Place) :
    List Char → Option ScalarRead
  | [] => none
  | c :: rest =>
    if isLineBreak c then readSingleQuoted read (gap.addBreak c) (place.after c) rest
    else if isTabOrSpace c then readSingleQuoted read (gap.addBlank c) (place.after c) rest
    else if place.column == 0 && startsDocumentMark (c :: rest) then none
    else if c == '\'' then
      match rest with
      | '\'' :: behind =>
        readSingleQuoted ('\'' :: (gap.folded ++ read)) {} ((place.after c).after '\'') behind
      | _ => some ⟨(gap.folded ++ read).reverse, false, place.after c, rest⟩
    else readSingleQuoted (c :: (gap.folded ++ read)) {} (place.after c) rest

/-- What a double-quoted scalar is in the middle of: plain text, an escape, or the
digits of a character's code. -/
inductive EscapeState
  | none
  | mark
  | code (digits value : Nat)

/-- The character that a one-letter escape stands for. -/
def shortEscape? : Char → Option Char
  | '0' => some '\x00'
  | 'a' => some '\x07'
  | 'b' => some '\x08'
  | 't' => some '\t'
  | '\t' => some '\t'
  | 'n' => some '\n'
  | 'v' => some '\x0b'
  | 'f' => some '\x0c'
  | 'r' => some '\r'
  | 'e' => some '\x1b'
  | ' ' => some ' '
  | '"' => some '"'
  | '\'' => some '\''
  | '\\' => some '\\'
  | 'N' => some '\u0085'
  | '_' => some '\u00a0'
  | 'L' => some '\u2028'
  | 'P' => some '\u2029'
  | _ => none

/-- The number of digits behind an escape that gives a code. -/
def codeLength? : Char → Option Nat
  | 'x' => some 2
  | 'u' => some 4
  | 'U' => some 8
  | _ => none

/-- Read a double-quoted scalar behind its first quote. -/
def readDoubleQuoted (read : List Char) (gap : Gap) (state : EscapeState) (place : Place) :
    List Char → Option ScalarRead
  | [] => none
  | c :: rest =>
    match state with
    | .mark =>
      if isLineBreak c then
        readDoubleQuoted read { broken := true } .none (place.after c) rest
      else match shortEscape? c, codeLength? c with
        | some meant, _ => readDoubleQuoted (meant :: read) {} .none (place.after c) rest
        | none, some digits => readDoubleQuoted read {} (.code digits 0) (place.after c) rest
        | none, none => none
    | .code digits value =>
      match hexValue? c with
      | none => none
      | some digit =>
        if digits ≤ 1 then
          match charOfCode? (value * 16 + digit) with
          | some meant => readDoubleQuoted (meant :: read) {} .none (place.after c) rest
          | none => none
        else readDoubleQuoted read {} (.code (digits - 1) (value * 16 + digit)) (place.after c) rest
    | .none =>
      if isLineBreak c then readDoubleQuoted read (gap.addBreak c) .none (place.after c) rest
      else if isTabOrSpace c then readDoubleQuoted read (gap.addBlank c) .none (place.after c) rest
      else if place.column == 0 && startsDocumentMark (c :: rest) then none
      else if c == '"' then some ⟨(gap.folded ++ read).reverse, false, place.after c, rest⟩
      else if c == '\\' then
        readDoubleQuoted (gap.folded ++ read) {} .mark (place.after c) rest
      else readDoubleQuoted (c :: (gap.folded ++ read)) {} .none (place.after c) rest

/-- What happens to the line breaks at the end of a block scalar. -/
inductive Chomping
  | strip
  | clip
  | keep
  deriving DecidableEq, Repr

/-- The indentation and empty lines before a line of a block scalar: the empty
lines, the largest column that was reached, and where the line begins. -/
structure BlockGap where
  breaks : List Char
  reach : Nat
  place : Place
  rest : List Char

/-- Read indentation and empty lines. `indent` is the column of the scalar, zero
if it is still to be found. There is no result if a tab stands in the indentation. -/
def readBlockGap (indent : Nat) (breaks : List Char) (reach : Nat) (place : Place) :
    List Char → Option BlockGap
  | [] => some ⟨breaks, max reach place.column, place, []⟩
  | c :: rest =>
    let inIndentation := indent == 0 || place.column < indent
    if inIndentation && c == ' ' then readBlockGap indent breaks reach (place.after c) rest
    else if inIndentation && c == '\t' then none
    else if isLineBreak c then
      readBlockGap indent (breaks ++ [c]) (max reach place.column) (place.after c) rest
    else some ⟨breaks, max reach place.column, place, c :: rest⟩

/-- What has been read of a block scalar: its text, the break at the end of its
last line, and whether that line began with white space. -/
structure BlockRead where
  text : List Char := []
  lastBreak : List Char := []
  startedBlank : Bool := false

/-- The text with one more line, which is joined to the one before it if both are
folded. -/
def BlockRead.addLine (read : BlockRead) (literal : Bool) (breaks line lastBreak : List Char) :
    BlockRead :=
  let startsBlank := line.head?.any isTabOrSpace
  let joint :=
    if !literal && !read.startedBlank && !startsBlank && read.lastBreak == ['\n'] then
      if breaks.isEmpty then [' '] else []
    else read.lastBreak
  { text := read.text ++ joint ++ breaks ++ line, lastBreak, startedBlank := startsBlank }

def readBlockLines (literal : Bool) (chomping : Chomping) (indent : Nat) (read : BlockRead)
    (gap : BlockGap) : Option ScalarRead :=
  let finish : ScalarRead :=
    { text := read.text ++ (if chomping == .strip then [] else read.lastBreak) ++
        (if chomping == .keep then gap.breaks else [])
      place := gap.place, rest := gap.rest }
  if gap.place.column != indent then some finish
  else
    match gap.rest with
    | [] => some finish
    | first :: others =>
      let line := (first :: others).takeWhile (!isLineBreak ·)
      let behind := (first :: others).drop line.length
      let lastBreak := behind.take 1
      let place := (gap.place.afterAll line).afterAll lastBreak
      match readBlockGap indent [] 0 place (behind.drop 1) with
      | none => none
      | some next =>
        if next.rest.length < gap.rest.length then
          readBlockLines literal chomping indent
            (read.addLine literal gap.breaks line lastBreak) next
        else none
termination_by gap.rest.length

/-- The chomping that an indicator asks for. -/
def chomping? : Char → Option Chomping
  | '-' => some .strip
  | '+' => some .keep
  | _ => none

/-- The indicators behind `|` or `>`: chomping and indentation, in any order. There
is no result for an indentation of zero. -/
def blockHeader? (text : List Char) : Option (Chomping × Nat × List Char) :=
  let digit? (c : Char) : Option Nat := if c.isDigit then some (c.toNat - 48) else none
  match text with
  | [] => some (.clip, 0, [])
  | c :: rest =>
    match chomping? c, digit? c with
    | some chomping, _ =>
      match rest with
      | d :: behind =>
        match digit? d with
        | some 0 => none
        | some indent => some (chomping, indent, behind)
        | none => some (chomping, 0, rest)
      | [] => some (chomping, 0, [])
    | none, some 0 => none
    | none, some indent =>
      match rest with
      | d :: behind =>
        match chomping? d with
        | some chomping => some (chomping, indent, behind)
        | none => some (.clip, indent, rest)
      | [] => some (.clip, indent, [])
    | none, none => some (.clip, 0, text)

/-- Read a block scalar behind its first mark. `parent` is the indentation of the
surrounding block, minus one outside of any. -/
def readBlockScalar (literal : Bool) (parent : Int) (place : Place) (text : List Char) :
    Option ScalarRead := do
  let (chomping, shift, header) ← blockHeader? text
  let behind := header.dropWhile isTabOrSpace
  let behind := if behind.head? == some '#' then behind.dropWhile (!isLineBreak ·) else behind
  guard (behind.head?.all isLineBreak)
  let skipped := text.take (text.length - behind.length)
  let place := (place.afterAll skipped).afterAll (behind.take 1)
  let declared := if shift == 0 then 0 else shift + parent.toNat
  let gap ← readBlockGap declared [] 0 place (behind.drop 1)
  let indent := if declared != 0 then declared else max (max gap.reach (parent + 1).toNat) 1
  readBlockLines literal chomping indent {} gap

end Detection.Yaml

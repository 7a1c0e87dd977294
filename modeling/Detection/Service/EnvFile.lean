import Detection.Entry
import Detection.Text.Pattern
import Detection.Text.Pieces
import Detection.Text.Quoted

/-!
# Files with settings

A file with settings has one variable a line, with an equality sign or a colon
behind its name. A value may stand between quotes, and then have several lines.
Outside single quotes a dollar sign refers to a variable that was set earlier in
the same file.
-/
namespace Detection.EnvFile

open Text

/-- Why a file with settings cannot be read. -/
inductive Fault
  | badName (c : Char)
  | unclosedQuote (line : String)
  deriving Repr, DecidableEq

/-- The message for a file that cannot be read. -/
def Fault.message : Fault → String
  | badName c => "unexpected character " ++ quote (String.singleton c) ++ " in variable name"
  | unclosedQuote line => "unterminated quoted value " ++ line

def isInnerSpace (c : Char) : Bool :=
  c == '\t' || c == '\x0b' || c == '\x0c' || c == '\r' || c == ' ' || c == '\u0085' || c == '\u00a0'

/-- The bytes that a name may have: letters, digits, dots and underscores of the
Latin alphabet, and white space inside a line. -/
def isNameByte (byte : UInt8) : Bool :=
  let code := byte.toNat
  let c := Char.ofNat code
  if code < 128 then c.isAlphanum || c == '_' || c == '.' || isInnerSpace c
  else [0x85, 0xa0, 0xaa, 0xb2, 0xb3, 0xb5, 0xb9, 0xba, 0xbc, 0xbd, 0xbe].contains code ||
    0xc0 ≤ code && code != 0xd7 && code != 0xf7

/-- The text from the next variable on, behind blank lines and comments. -/
def nextVariable (text : List Char) : List Char :=
  match text with
  | [] => []
  | c :: rest =>
    if isBlank c then nextVariable rest
    else if c == '#' then
      if (rest.dropWhile (· != '\n')).length < (c :: rest).length then
        nextVariable (rest.dropWhile (· != '\n'))
      else []
    else c :: rest
termination_by text.length
decreasing_by all_goals (simp only [List.length_cons] at *; omega)

/-- The text without the word that marks a variable for other programs. -/
def withoutExport (text : List Char) : List Char :=
  match dropLeading? "export".toList text with
  | some rest => if rest.head?.any isInnerSpace then rest.dropWhile isInnerSpace else text
  | none => text

/-- The name of a variable and the text behind its sign. Where no sign follows, the
name is empty and the text is all value. -/
def readName (text : List Char) : Except Fault (String × List Char) :=
  let name := text.takeWhile fun c => c != '=' && c != ':'
  match name.find? fun c => !(charBytes c).all isNameByte with
  | some c => .error (.badName c)
  | none =>
    match text.drop name.length with
    | _ :: rest =>
      .ok (String.ofList (name.reverse.dropWhile isBlank).reverse, rest.dropWhile isInnerSpace)
    | [] => .ok ("", text.dropWhile isInnerSpace)

def reference : Pattern :=
  .seq [.optional (.named "escape" (.char '\\')), .char '$', .optional (.char '('),
    .optional (.char '\x7b'),
    .optional (.named "name" (.many1 (.one fun c => c.isUpper || c.isDigit || c == '_'))),
    .optional (.char '\x7d')]

/-- Replace the references to variables by their values. -/
def expand (known : List (String × String)) (text : List Char) : List Char :=
  reference.replaceAll (fun found groups =>
    if (groups.lookup "escape").isSome then found.drop 1
    else match groups.lookup "name" with
      | some name => ((known.lookup (String.ofList name)).getD "").toList
      | none => found) text

/-- Replace the escapes of line breaks. -/
def expandBreaks : List Char → List Char
  | '\\' :: 'n' :: rest => '\n' :: expandBreaks rest
  | '\\' :: 'r' :: rest => '\r' :: expandBreaks rest
  | '\\' :: c :: rest => '\\' :: c :: expandBreaks rest
  | c :: rest => c :: expandBreaks rest
  | [] => []

/-- Drop the backslashes that protect a character other than a dollar sign. -/
def dropProtection : List Char → List Char
  | '\\' :: c :: rest =>
    if c == '$' then '\\' :: dropProtection (c :: rest) else c :: dropProtection rest
  | c :: rest => c :: dropProtection rest
  | [] => []

/-- The line without a comment that begins behind white space. -/
def withoutComment (line : List Char) : List Char :=
  match cutLast line.reverse with
  | some before => before.reverse
  | none => line
where
  /-- What stands before the last comment, on the reversed line. -/
  cutLast : List Char → Option (List Char)
    | '#' :: c :: rest => if isInnerSpace c then some (c :: rest) else cutLast (c :: rest)
    | _ :: rest => cutLast rest
    | [] => none

/-- The inside of a quoted value and the text behind it; the text starts behind the
opening quote. -/
def cutQuoted (mark : Char) (before : Char) : List Char → Option (List Char × List Char)
  | [] => none
  | c :: rest =>
    if c == mark && before != '\\' then some ([], rest)
    else (cutQuoted mark c rest).map fun (inside, behind) => (c :: inside, behind)

/-- The value of a variable and the text behind it. -/
def readValue (known : List (String × String)) (text : List Char) :
    Except Fault (String × List Char) :=
  let unquoted : Except Fault (String × List Char) :=
    let line := text.takeWhile fun c => c != '\n' && c != '\r'
    let value := trimBy isInnerSpace (withoutComment line)
    .ok (String.ofList (expand known value), text.drop line.length)
  match text with
  | mark :: rest =>
    if mark == '"' || mark == '\'' then
      match cutQuoted mark mark rest with
      | none => .error (.unclosedQuote (String.ofList (text.takeWhile (· != '\n'))))
      | some (inside, behind) =>
        let value := trimBy (· == mark) inside
        let value := if mark == '"' then expand known (dropProtection (expandBreaks value))
          else value
        .ok (String.ofList value, behind)
    else unquoted
  | [] => unquoted

/-- Read variables, after those that have been read already. -/
def readFrom (known : List (String × String)) (text : List Char) :
    Except Fault (List (String × String)) :=
  match nextVariable text with
  | [] => .ok known
  | start => do
    let (name, behind) ← readName (withoutExport start)
    let (value, rest) ← readValue known behind
    if rest.length < text.length then readFrom (putEntry name value known) rest
    else return putEntry name value known
termination_by text.length

def read (text : String) : Except Fault (List (String × String)) :=
  readFrom [] (replaceChars ['\r', '\n'] ['\n'] text.toList)

end Detection.EnvFile

import Detection.Text.Numeral
import Detection.Text.Quoted

/-!
# JSON documents

Reading is lenient: comments may stand wherever white space may, and a comma may
follow the last item. An object keeps all of its entries in order, so that a
reader can let a later entry win over an earlier one; keys are looked up without
regard to letter case.
-/
namespace Detection

open Text

/-- A JSON value. A number is kept as it is written. -/
inductive Json
  | null
  | bool (value : Bool)
  | number (text : String)
  | string (text : String)
  | array (items : List Json)
  | object (entries : List (String × Json))
  deriving Repr, Inhabited

namespace Json

/-- The rest of a text behind a block comment. -/
def skipBlockComment : List Char → Option (List Char)
  | '*' :: '/' :: rest => some rest
  | _ :: rest => skipBlockComment rest
  | [] => none

/-- The rest of a text behind a comment to the end of the line. -/
def skipLineComment : List Char → Option (List Char)
  | '\n' :: rest => some rest
  | _ :: rest => skipLineComment rest
  | [] => none

/-- Skip white space and comments. There is no result for a comment that does not
end. -/
def skipGaps (text : List Char) : Option (List Char) :=
  match text with
  | [] => some []
  | c :: rest =>
    if c == ' ' || c == '\t' || c == '\r' || c == '\n' then skipGaps rest
    else if c == '/' then
      let behind? := match rest with
        | '/' :: comment => skipLineComment comment
        | '*' :: comment => skipBlockComment comment
        | _ => none
      match behind? with
      | none => none
      | some behind => if behind.length < (c :: rest).length then skipGaps behind else none
    else some text
termination_by text.length
decreasing_by all_goals (simp only [List.length_cons] at *; omega)

/-- The value of four hexadecimal digits. -/
def hex4? (a b c d : Char) : Option Nat := do
  return ((← hexValue? a) * 16 + (← hexValue? b)) * 256 +
    ((← hexValue? c) * 16 + (← hexValue? d))

/-- The character that stands for a code that is none. -/
def replacement : Char := '\ufffd'

/-- The character of a code, or the replacement for one half of a pair. -/
def charOf (code : Nat) : Char :=
  if h : code.isValidChar then Char.ofNatAux code h else replacement

/-- The character that two halves of a pair make together. -/
def pairOf? (high low : Nat) : Option Char :=
  if 0xd800 ≤ high && high < 0xdc00 && 0xdc00 ≤ low && low < 0xe000 then
    some (charOf (0x10000 + (high - 0xd800) * 0x400 + (low - 0xdc00)))
  else none

def escaped? : Char → Option Char
  | '"' => some '"'
  | '\\' => some '\\'
  | '/' => some '/'
  | 'b' => some '\x08'
  | 'f' => some '\x0c'
  | 'n' => some '\n'
  | 'r' => some '\r'
  | 't' => some '\t'
  | _ => none

/-- Read a string behind its first quote. What has been read stands last character
first. `high` is the first half of a pair that waits for its second half. -/
def readString (read : List Char) (high : Option Nat) : List Char → Option (List Char × List Char)
  | [] => none
  | '\\' :: 'u' :: a :: b :: c :: d :: rest =>
    match hex4? a b c d with
    | none => none
    | some code =>
      match high.bind (pairOf? · code) with
      | some pair => readString (pair :: read) none rest
      | none =>
        let read := (high.map fun _ => replacement).toList ++ read
        if 0xd800 ≤ code && code < 0xdc00 then readString read (some code) rest
        else readString (charOf code :: read) none rest
  | '\\' :: c :: rest =>
    match escaped? c with
    | none => none
    | some meant =>
      readString (meant :: ((high.map fun _ => replacement).toList ++ read)) none rest
  | c :: rest =>
    let read := (high.map fun _ => replacement).toList ++ read
    if c == '"' then some (read.reverse, rest)
    else if c.toNat < 0x20 || c == '\\' then none
    else readString (c :: read) none rest

def digits? (text : List Char) : Option (List Char × List Char) :=
  let digits := text.takeWhile Char.isDigit
  if digits.isEmpty then none else some (digits, text.drop digits.length)

def readNumber (text : List Char) : Option (String × List Char) := do
  let unsigned := if text.head? == some '-' then text.drop 1 else text
  let (whole, rest) ← digits? unsigned
  guard (whole.length == 1 || whole.head? != some '0')
  let rest ← match rest with
    | '.' :: fraction => (digits? fraction).map Prod.snd
    | _ => some rest
  let rest ← match rest with
    | c :: exponent =>
      if c == 'e' || c == 'E' then (digits? (dropSign exponent)).map Prod.snd
      else some (c :: exponent)
    | [] => some []
  return (String.ofList (text.take (text.length - rest.length)), rest)

def depthLimit : Nat := 10000

mutual

/-- Read a value. `depth` tells how many more levels it may have. -/
def readValue (fuel depth : Nat) (text : List Char) : Option (Json × List Char) :=
  match fuel with
  | 0 => none
  | fuel + 1 =>
    match text with
    | '"' :: rest => (readString [] none rest).map fun (text, rest) =>
      (.string (String.ofList text), rest)
    | '[' :: rest =>
      if depth == 0 then none
      else (readItems fuel (depth - 1) [] rest).map fun (items, rest) => (.array items, rest)
    | '\x7b' :: rest =>
      if depth == 0 then none
      else (readEntries fuel (depth - 1) [] rest).map fun (entries, rest) => (.object entries, rest)
    | 'n' :: 'u' :: 'l' :: 'l' :: rest => some (.null, rest)
    | 't' :: 'r' :: 'u' :: 'e' :: rest => some (.bool true, rest)
    | 'f' :: 'a' :: 'l' :: 's' :: 'e' :: rest => some (.bool false, rest)
    | other => (readNumber other).map fun (text, rest) => (.number text, rest)

/-- Read the items of an array behind its opening bracket or a comma. -/
def readItems (fuel depth : Nat) (items : List Json) (text : List Char) :
    Option (List Json × List Char) :=
  match fuel with
  | 0 => none
  | fuel + 1 => do
    match ← skipGaps text with
    | ']' :: rest => return (items, rest)
    | start =>
      let (item, rest) ← readValue fuel depth start
      match ← skipGaps rest with
      | ',' :: rest => readItems fuel depth (items ++ [item]) rest
      | ']' :: rest => return (items ++ [item], rest)
      | _ => none

/-- Read the entries of an object behind its opening brace or a comma. -/
def readEntries (fuel depth : Nat) (entries : List (String × Json)) (text : List Char) :
    Option (List (String × Json) × List Char) :=
  match fuel with
  | 0 => none
  | fuel + 1 => do
    match ← skipGaps text with
    | '\x7d' :: rest => return (entries, rest)
    | '"' :: start =>
      let (name, rest) ← readString [] none start
      match ← skipGaps rest with
      | ':' :: rest =>
        let (value, rest) ← readValue fuel depth (← skipGaps rest)
        let entry := (String.ofList name, value)
        match ← skipGaps rest with
        | ',' :: rest => readEntries fuel depth (entries ++ [entry]) rest
        | '\x7d' :: rest => return (entries ++ [entry], rest)
        | _ => none
      | _ => none
    | _ => none

end

def read? (text : String) : Option Json := do
  let chars := text.toList
  let (value, rest) ← readValue (chars.length + 1) depthLimit (← skipGaps chars)
  guard (← skipGaps rest).isEmpty
  return value

/-- A step of decoding, which fails on a value of the wrong kind. -/
abbrev Decoder (α : Type) := Json → Option α

/-- A text; null leaves the text that was there. -/
def text? (old : String) : Decoder String
  | null => some old
  | string text => some text
  | _ => none

/-- The value of an integer of 64 bits. -/
def intOf? (text : String) : Option Int :=
  match text.toInt? with
  | some value =>
    let bound : Int := Nat.pow 2 63
    if -bound ≤ value && value < bound then some value else none
  | none => none

/-- An integer; null leaves the one that was there. -/
def int? (old : Int) : Decoder Int
  | null => some old
  | number text => intOf? text
  | _ => none

/-- A list of values; null is the empty one. -/
def list? {α : Type} (item? : Decoder α) : Decoder (List α)
  | null => some []
  | array items => items.mapM item?
  | _ => none

/-- Take in the entries of an object one after the other; null has none. -/
def fold? {α : Type} (take : α → String → Json → Option α) (start : α) : Decoder α
  | null => some start
  | object entries => entries.foldlM (fun value (name, entry) => take value name entry) start
  | _ => none

/-- Whether an entry has a name, in any letter case. -/
def named (name wanted : String) : Bool :=
  equalFold name wanted

/-- How a document is printed. -/
structure Format where
  indent : Nat
  /-- Whether the marks of HTML are escaped. -/
  escapesMarkup : Bool

/-- A character inside a printed string. -/
def printedChar (escapesMarkup : Bool) (c : Char) : List Char :=
  match c with
  | '"' => ['\\', '"']
  | '\\' => ['\\', '\\']
  | '\x08' => ['\\', 'b']
  | '\x0c' => ['\\', 'f']
  | '\n' => ['\\', 'n']
  | '\r' => ['\\', 'r']
  | '\t' => ['\\', 't']
  | c =>
    if c.toNat < 0x20 || c == '\u2028' || c == '\u2029' ||
        escapesMarkup && (c == '<' || c == '>' || c == '&') then
      '\\' :: 'u' :: hexDigits 4 c.toNat
    else [c]

def printedString (escapesMarkup : Bool) (text : String) : String :=
  String.ofList ('"' :: text.toList.flatMap (printedChar escapesMarkup) ++ ['"'])

/-- The beginning of a line at a depth. -/
def newLine (indent depth : Nat) : String :=
  String.ofList ('\n' :: List.replicate (indent * depth) ' ')

mutual

def printAt (format : Format) (depth : Nat) : Json → String
  | null => "null"
  | bool value => if value then "true" else "false"
  | number text => text
  | string text => printedString format.escapesMarkup text
  | array items =>
    if items.isEmpty then "[]"
    else "[" ++ printItems format (depth + 1) items ++ newLine format.indent depth ++ "]"
  | object entries =>
    if entries.isEmpty then "\x7b\x7d"
    else "\x7b" ++ printEntries format (depth + 1) entries ++ newLine format.indent depth ++ "\x7d"

def printItems (format : Format) (depth : Nat) : List Json → String
  | [] => ""
  | item :: others =>
    newLine format.indent depth ++ printAt format depth item ++
      (if others.isEmpty then "" else ",") ++ printItems format depth others

def printEntries (format : Format) (depth : Nat) : List (String × Json) → String
  | [] => ""
  | (name, value) :: others =>
    newLine format.indent depth ++ printedString format.escapesMarkup name ++ ": " ++
      printAt format depth value ++ (if others.isEmpty then "" else ",") ++
      printEntries format depth others

end

def print (format : Format) (value : Json) : String :=
  printAt format 0 value

end Json

end Detection

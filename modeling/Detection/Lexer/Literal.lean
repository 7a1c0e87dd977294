import Detection.Text.Pattern

/-!
# Literals of query languages

Recognisers for the pieces of query text that all dialects are made of: names,
numbers, quoted texts and operator words. Each takes the text from a place on and
returns what it recognised together with the rest.
-/
namespace Detection.Lexer

open Text

/-- What a recogniser found and the text behind it. -/
abbrev Found (α : Type) := Option (α × List Char)

/-- The longest beginning of a text in a class. -/
def spanOf (accepts : Char → Bool) (text : List Char) : List Char × List Char :=
  (text.takeWhile accepts, text.dropWhile accepts)

/-- A name: one character of a class and then as many as possible of another. -/
def name? (starts continues : Char → Bool) : List Char → Found (List Char)
  | [] => none
  | c :: rest =>
    if starts c then
      let (others, rest) := spanOf continues rest
      some (c :: others, rest)
    else none

/-- An optional fraction: a point with at least one digit. -/
def fraction (text : List Char) : List Char × List Char :=
  match text with
  | '.' :: rest =>
    let (digits, behind) := spanOf Char.isDigit rest
    if digits.isEmpty then ([], text) else ('.' :: digits, behind)
  | _ => ([], text)

/-- Decimal digits with an optional fraction. -/
def unsigned? (text : List Char) : Found (List Char) :=
  let (digits, rest) := spanOf Char.isDigit text
  if digits.isEmpty then none
  else
    let (places, rest) := fraction rest
    some (digits ++ places, rest)

/-- Decimal digits with an optional minus sign and an optional fraction. -/
def number? (text : List Char) : Found (List Char) :=
  match text with
  | '-' :: rest => (unsigned? rest).map fun (number, rest) => ('-' :: number, rest)
  | _ => unsigned? text

/-- A text up to the closing mark. A backslash makes the next character part of
the text, unless that character ends the line. -/
def escapedBody? (mark : Char) : List Char → Found (List Char)
  | [] => none
  | '\\' :: c :: rest =>
    if c == '\n' then none
    else (escapedBody? mark rest).map fun (body, rest) => ('\\' :: c :: body, rest)
  | c :: rest =>
    if c == mark then some ([], rest)
    else if c == '\\' then none
    else (escapedBody? mark rest).map fun (body, rest) => (c :: body, rest)

/-- A text up to the closing mark, in which two marks stand for one. When no mark
closes the text behind a pair, the first of the pair does. -/
def doubledBody? (mark : Char) : List Char → Found (List Char)
  | [] => none
  | first :: rest =>
    if first != mark then
      (doubledBody? mark rest).map fun (body, rest) => (first :: body, rest)
    else match rest with
      | second :: behind =>
        if second != mark then some ([], rest)
        else match doubledBody? mark behind with
          | some (body, rest) => some (first :: second :: body, rest)
          | none => some ([], rest)
      | [] => some ([], [])

/-- How a quoted text protects its closing mark. -/
inductive Quoting
  | escaped
  | doubled
  deriving DecidableEq, Repr

/-- A text between two marks, without them. -/
def quoted? (mark : Char) (quoting : Quoting) : List Char → Found (List Char)
  | [] => none
  | c :: rest =>
    if c == mark then
      match quoting with
      | .escaped => escapedBody? mark rest
      | .doubled => doubledBody? mark rest
    else none

/-- A text between slashes and the letters behind it. -/
def slashed? (text : List Char) : Found (List Char) :=
  (quoted? '/' .escaped text).map fun (body, rest) => (body, rest.dropWhile Char.isAlpha)

/-- The rest behind the characters of a word, compared exactly or without regard
to letter case. A blank in the word stands for any white space. -/
def wordRest? (fold : Bool) : List Char → List Char → Option (List Char)
  | [], text => some text
  | ' ' :: word, text =>
    match text with
    | c :: rest => if isSpace c then wordRest? fold word (rest.dropWhile isSpace) else none
    | [] => none
  | w :: word, text =>
    match text with
    | c :: rest =>
      if (if fold then foldKey c == foldKey w else c == w) then wordRest? fold word rest
      else none
    | [] => none

/-- A word with nothing in front of it that would make it longer at its end. -/
def wholeWord? (fold : Bool) (word text : List Char) : Found (List Char) :=
  match wordRest? fold word text with
  | none => none
  | some rest =>
    let taken := text.take (text.length - rest.length)
    if taken.getLast?.any isWord != rest.head?.any isWord then some (taken, rest) else none

end Detection.Lexer

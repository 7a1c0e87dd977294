import Detection.Text.LetterCase

/-!
# Numeric literals

Which texts are numbers. A number has an optional sign and is written in
decimal or, behind `0x`, in hexadecimal with a mandatory binary exponent; it may
have a point, an exponent, and underscores between digits; infinity and
not-a-number have names. A text of that form is still refused when it rounds to
a value beyond the largest double-precision number. Nothing is computed in
floating point: the magnitude is compared exactly.
-/
namespace Detection.Text

/-- Why a text is not a number. -/
inductive NumeralFault
  | malformed
  | outOfRange
  deriving DecidableEq, Repr

def hexValue? (c : Char) : Option Nat :=
  if '0' ≤ c && c ≤ '9' then some (c.toNat - '0'.toNat)
  else if 'a' ≤ c && c ≤ 'f' then some (c.toNat - 'a'.toNat + 10)
  else if 'A' ≤ c && c ≤ 'F' then some (c.toNat - 'A'.toNat + 10)
  else none

/-- The value of a digit in base ten or sixteen. -/
def digitValue? (hexadecimal : Bool) (c : Char) : Option Nat :=
  (hexValue? c).filter fun value => hexadecimal || value < 10

/-- Digits around an optional point: their joint value, how many there are, and
how many of them stand behind the point. -/
structure Mantissa where
  value : Nat := 0
  digits : Nat := 0
  fraction : Nat := 0
  pointed : Bool := false

/-- Read digits, underscores and at most one point. -/
def readMantissa (hexadecimal : Bool) (read : Mantissa) : List Char → Mantissa × List Char
  | [] => (read, [])
  | c :: rest =>
    if c == '_' then readMantissa hexadecimal read rest
    else if c == '.' && !read.pointed then
      readMantissa hexadecimal { read with pointed := true } rest
    else match digitValue? hexadecimal c with
      | some digit =>
        readMantissa hexadecimal
          { read with
            value := read.value * (if hexadecimal then 16 else 10) + digit
            digits := read.digits + 1
            fraction := if read.pointed then read.fraction + 1 else read.fraction } rest
      | none => (read, c :: rest)

/-- The value of an exponent's digits, which stops growing once it exceeds any
exponent that could matter. -/
def readExponent (value : Nat) : List Char → Nat × List Char
  | [] => (value, [])
  | c :: rest =>
    if c == '_' then readExponent value rest
    else match digitValue? false c with
      | some digit => readExponent (if value < 10000 then value * 10 + digit else value) rest
      | none => (value, c :: rest)

/-- What stands before a character of a number: its beginning, a digit or base
marker, an underscore, or something else. -/
inductive Before
  | start
  | digit
  | underscore
  | other
  deriving DecidableEq

/-- Underscores stand only between digits, or between the base marker and a digit. -/
def underscoresFit (hexadecimal : Bool) (before : Before) : List Char → Bool
  | [] => before != .underscore
  | c :: rest =>
    if (digitValue? hexadecimal c).isSome then underscoresFit hexadecimal .digit rest
    else if c == '_' then before == .digit && underscoresFit hexadecimal .underscore rest
    else before != .underscore && underscoresFit hexadecimal .other rest

def dropSign : List Char → List Char
  | c :: rest => if c == '+' || c == '-' then rest else c :: rest
  | [] => []

/-- Every double-precision number lies below this bound, and every value from
it on rounds beyond them. -/
def overflowBound : Nat := Nat.pow 2 1024 - Nat.pow 2 970

/-- Whether `value * base ^ exponent` reaches the bound. -/
def overflows (base value : Nat) (exponent : Int) : Bool :=
  if value == 0 then false
  else if exponent ≥ 0 then
    exponent > 2000 || value * Nat.pow base exponent.toNat ≥ overflowBound
  else
    let shift := (-exponent).toNat
    shift ≤ 4 * (value.log2 + 1) && value ≥ overflowBound * Nat.pow base shift

/-- The names of infinity and of not-a-number; only infinity takes a sign. -/
def isNamed (text : List Char) : Bool :=
  let named := (dropSign text).map Char.toLower
  named == ['i', 'n', 'f'] || named == "infinity".toList ||
    text.map Char.toLower == ['n', 'a', 'n']

/-- The digits of a number behind the marker of base sixteen, which has to be
followed by something. -/
def hexBody? : List Char → Option (List Char)
  | '0' :: x :: c :: rest => if x == 'x' || x == 'X' then some (c :: rest) else none
  | _ => none

/-- Read the exponent behind its letter, with its sign. -/
def readSignedExponent? (text : List Char) : Option (Int × List Char) :=
  let negative := text.head? == some '-'
  match dropSign text with
  | c :: rest =>
    if (digitValue? false c).isSome then
      let (value, rest) := readExponent 0 (c :: rest)
      some (if negative then -(value : Int) else value, rest)
    else none
  | [] => none

/-- Accept a number, or say why the text is none. -/
def checkNumeral (text : List Char) : Except NumeralFault Unit :=
  let unsigned := dropSign text
  let hexadecimal := (hexBody? unsigned).isSome
  let (mantissa, rest) := readMantissa hexadecimal {} ((hexBody? unsigned).getD unsigned)
  let exponent? : Option (Int × List Char) := match rest with
    | c :: behind =>
      if (c == 'e' || c == 'E') && !hexadecimal || (c == 'p' || c == 'P') && hexadecimal then
        readSignedExponent? behind
      else none
    | [] => if hexadecimal then none else some (0, [])
  let marked := unsigned.take 2 |>.map Char.toLower
  let based := marked == ['0', 'x'] || marked == ['0', 'b'] || marked == ['0', 'o']
  let fits := !text.contains '_' ||
    underscoresFit (marked == ['0', 'x']) (if based then .digit else .start)
      (if based then unsigned.drop 2 else unsigned)
  if isNamed text then .ok ()
  else if mantissa.digits == 0 then .error .malformed
  else match exponent? with
    | some (exponent, []) =>
      if !fits then .error .malformed
      else
        let beyond :=
          if hexadecimal then overflows 2 mantissa.value (exponent - 4 * mantissa.fraction)
          else overflows 10 mantissa.value (exponent - mantissa.fraction)
        if beyond then .error .outOfRange else .ok ()
    | _ => .error .malformed

end Detection.Text

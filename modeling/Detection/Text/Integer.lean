import Detection.Text.Numeral
import Detection.Text.Quoted

/-!
# Integers and switches in settings

An integer may be written in base two, eight, ten or sixteen, with a marker for
the base and with underscores between digits. A leading zero marks base eight.
-/
namespace Detection.Text

/-- The base of a number without its sign, and its digits. -/
def baseOf : List Char → Nat × List Char
  | '0' :: mark :: c :: rest =>
    match mark.toLower with
    | 'b' => (2, c :: rest)
    | 'o' => (8, c :: rest)
    | 'x' => (16, c :: rest)
    | _ => (8, mark :: c :: rest)
  | '0' :: rest => (8, rest)
  | text => (10, text)

/-- The value of digits in a base; underscores do not count. -/
def digitsValue? (base : Nat) (text : List Char) : Option Nat :=
  (text.filter (· != '_')).foldlM (fun value c => do
    let digit ← hexValue? c
    if digit < base then some (value * base + digit) else none) 0

/-- Whether the underscores of a number without its sign stand between digits or
behind the marker of its base. -/
def underscoresSeparate (unsigned : List Char) : Bool :=
  match unsigned with
  | '0' :: mark :: rest =>
    if ['b', 'o', 'x'].contains mark.toLower then
      underscoresFit (mark.toLower == 'x') .digit rest
    else underscoresFit false .start unsigned
  | _ => underscoresFit false .start unsigned

/-- Read an integer of 64 bits. -/
def readInteger (text : String) : Except NumeralFault Int :=
  let chars := text.toList
  let unsigned := dropSign chars
  let negative := chars.head? == some '-'
  let (base, digits) := baseOf unsigned
  if unsigned.isEmpty || !underscoresSeparate unsigned then .error .malformed
  else match digitsValue? base digits with
    | none => .error .malformed
    | some value =>
      if negative then
        if value ≤ Nat.pow 2 63 then .ok (-(value : Int)) else .error .outOfRange
      else if value < Nat.pow 2 63 then .ok value
      else .error .outOfRange

/-- The message for a text that is no integer. -/
def integerMessage (text : String) (fault : NumeralFault) : String :=
  "strconv.ParseInt: parsing " ++ quote text ++ ": " ++
    match fault with
    | .malformed => "invalid syntax"
    | .outOfRange => "value out of range"

def readSwitch? (text : String) : Option Bool :=
  if ["1", "t", "T", "TRUE", "true", "True"].contains text then some true
  else if ["0", "f", "F", "FALSE", "false", "False"].contains text then some false
  else none

/-- The message for a text that is no switch. -/
def switchMessage (text : String) : String :=
  "strconv.ParseBool: parsing " ++ quote text ++ ": invalid syntax"

end Detection.Text

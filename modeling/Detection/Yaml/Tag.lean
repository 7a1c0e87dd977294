import Detection.Text.Numeral
import Detection.Text.Pattern
import Detection.Text.Pieces

/-!
# What a plain scalar means

A scalar without quotes and without a tag gets its tag from its text: a truth
value, a null, a number, a point in time, or else a string. The printer asks the
same question from the other side, since a string whose text would be taken for
something else has to be quoted.
-/
namespace Detection.Yaml

open Text

/-- The words with a meaning of their own. -/
def namedTags : List (String × String) :=
  [("true", "!!bool"), ("True", "!!bool"), ("TRUE", "!!bool"),
    ("false", "!!bool"), ("False", "!!bool"), ("FALSE", "!!bool"),
    ("", "!!null"), ("~", "!!null"), ("null", "!!null"), ("Null", "!!null"), ("NULL", "!!null"),
    (".nan", "!!float"), (".NaN", "!!float"), (".NAN", "!!float"),
    (".inf", "!!float"), (".Inf", "!!float"), (".INF", "!!float"),
    ("+.inf", "!!float"), ("+.Inf", "!!float"), ("+.INF", "!!float"),
    ("-.inf", "!!float"), ("-.Inf", "!!float"), ("-.INF", "!!float")]

/-- The value of digits in a base up to sixteen. -/
def digitsValue? (base value : Nat) : List Char → Option Nat
  | [] => some value
  | c :: rest =>
    match hexValue? c with
    | some digit => if digit < base then digitsValue? base (value * base + digit) rest else none
    | none => none

/-- The value of an unsigned integer whose base is told by its beginning: `0b`,
`0o`, `0x`, a leading zero for octal, or none for decimal. -/
def unsignedValue? : List Char → Option Nat
  | [] => none
  | '0' :: mark :: c :: rest =>
    if mark == 'b' || mark == 'B' then digitsValue? 2 0 (c :: rest)
    else if mark == 'o' || mark == 'O' then digitsValue? 8 0 (c :: rest)
    else if mark == 'x' || mark == 'X' then digitsValue? 16 0 (c :: rest)
    else digitsValue? 8 0 (mark :: c :: rest)
  | '0' :: rest => digitsValue? 8 0 rest
  | text => digitsValue? 10 0 text

/-- Whether a sign and an absolute value make a number of 64 bits. -/
def fitsSigned (negative : Bool) (value : Nat) : Bool :=
  value < Nat.pow 2 63 || negative && value == Nat.pow 2 63

/-- Whether a text, read by `value?` behind its sign, is a signed integer of 64 bits. -/
def isSignedBy (value? : List Char → Option Nat) (text : List Char) : Bool :=
  (value? (dropSign text)).any (fitsSigned (text.head? == some '-'))

/-- The value of a non-empty text of digits. -/
def someDigitsValue? (base : Nat) (text : List Char) : Option Nat :=
  if text.isEmpty then none else digitsValue? base 0 text

/-- Whether a marker of the base is followed by a signed integer in that base. -/
def isSignedBehind (mark : String) (base : Nat) (text : List Char) : Bool :=
  match dropLeading? mark.toList text with
  | some rest => isSignedBy (someDigitsValue? base) rest
  | none => match dropLeading? ('-' :: mark.toList) text with
    | some rest => (someDigitsValue? base rest).any (fitsSigned true)
    | none => false

/-- Whether a text without underscores is an integer. -/
def isInteger (text : List Char) : Bool :=
  isSignedBy unsignedValue? text || (unsignedValue? text).any (· < Nat.pow 2 64)

def signPattern : Pattern := .optional (.one fun c => c == '-' || c == '+')

def digitPattern : Pattern := .one Char.isDigit

/-- The decimal fractions, with an optional exponent. -/
def fractionPattern : Pattern :=
  .seq [signPattern,
    .either (.both (.char '.') (.many1 digitPattern))
      (.both (.many1 digitPattern) (.optional (.both (.char '.') (.many digitPattern)))),
    .optional (.seq [.one fun c => c == 'e' || c == 'E', signPattern, .many1 digitPattern])]

/-- One or two digits, with their value. -/
def shortNumber? : List Char → Option (Nat × List Char)
  | [] => none
  | c :: rest =>
    if !c.isDigit then none
    else match rest with
      | d :: behind =>
        if d.isDigit then some ((c.toNat - 48) * 10 + (d.toNat - 48), behind)
        else some (c.toNat - 48, rest)
      | [] => some (c.toNat - 48, [])

/-- A given character, and what stands behind it. -/
def skipChar? (mark : Char) : List Char → Option (List Char)
  | c :: rest => if c == mark then some rest else none
  | [] => none

def daysIn (year month : Nat) : Nat :=
  if month == 2 then
    if year % 4 == 0 && (year % 100 != 0 || year % 400 == 0) then 29 else 28
  else if month == 4 || month == 6 || month == 9 || month == 11 then 30
  else 31

/-- A date with a year of four digits and a month and day of one or two. -/
def date? (text : List Char) : Option (List Char) := do
  let year := text.takeWhile Char.isDigit
  guard (year.length == 4)
  let (month, rest) ← shortNumber? (← skipChar? '-' (text.drop 4))
  guard (1 ≤ month && month ≤ 12)
  let (day, rest) ← shortNumber? (← skipChar? '-' rest)
  guard (1 ≤ day && day ≤ daysIn ((digitsValue? 10 0 year).getD 0) month)
  return rest

/-- The digits of a second's fraction, if there are any. -/
def skipFraction (text : List Char) : List Char :=
  match text with
  | mark :: c :: rest =>
    if (mark == '.' || mark == ',') && c.isDigit then rest.dropWhile Char.isDigit else text
  | _ => text

/-- A time of day with an optional fraction of a second. -/
def clock? (text : List Char) : Option (List Char) := do
  let (hour, rest) ← shortNumber? text
  let (minute, rest) ← shortNumber? (← skipChar? ':' rest)
  let (second, rest) ← shortNumber? (← skipChar? ':' rest)
  guard (hour < 24 && minute < 60 && second < 60)
  return skipFraction rest

/-- A time zone: `Z`, or a signed number of hours and minutes. -/
def isZone : List Char → Bool
  | ['Z'] => true
  | [sign, h, k, colon, m, n] =>
    (sign == '+' || sign == '-') && colon == ':' && [h, k, m, n].all Char.isDigit &&
      (h.toNat - 48) * 10 + (k.toNat - 48) ≤ 24 && (m.toNat - 48) * 10 + (n.toNat - 48) ≤ 60
  | _ => false

/-- A date alone, a date and a time with a zone, or, divided by spaces, a date
and a time without one. -/
def isTimestamp (text : List Char) : Bool :=
  match date? text with
  | none => false
  | some [] => true
  | some (mark :: rest) =>
    if mark == ' ' then clock? (rest.dropWhile (· == ' ')) == some []
    else (mark == 'T' || mark == 't') && (clock? rest).any isZone

/-- The tag of a number or point in time, if the text is one. -/
def numericTag? (timed : Bool) (text : List Char) : Option String :=
  let digits := text.filter (· != '_')
  if timed && isTimestamp text then some "!!timestamp"
  else if isInteger digits then some "!!int"
  else if fractionPattern.matchesWhole digits && (checkNumeral digits matches .ok ()) then
    some "!!float"
  else if isSignedBehind "0b" 2 digits || isSignedBehind "0o" 8 digits then some "!!int"
  else none

/-- The tag that a text gets when `wanted` is the tag asked for, empty for none.
Only an unasked text or one asked to be a time is looked at as a time. -/
def implicitTag (wanted : String) (text : String) : String :=
  match namedTags.lookup text with
  | some tag => tag
  | none => match text.toList with
    | [] => "!!null"
    | c :: rest =>
      if c == '.' then
        if checkNumeral (c :: rest) matches .ok () then "!!float" else "!!str"
      else if c.isDigit || c == '+' || c == '-' then
        (numericTag? (wanted == "" || wanted == "!!timestamp") (c :: rest)).getD "!!str"
      else "!!str"

def plainTag (text : String) : String :=
  implicitTag "" text

/-- The tag of a plain scalar without a tag of its own. Two angles ask for the entries
of another table. -/
def untaggedTag (text : String) : String :=
  if text == "<<" then "!!merge" else plainTag text

/-- Whether an integer needs all 64 bits for its absolute value. -/
def isBeyondSigned (text : String) : Bool :=
  let digits := text.toList.filter (· != '_')
  !isSignedBy unsignedValue? digits && isInteger digits

/-- Whether a scalar can be read under the tag it carries. An integer is a fraction
too if it leaves a bit for its sign. -/
def tagAgrees (tag text : String) : Bool :=
  if ["!!bool", "!!int", "!!float", "!!null", "!!timestamp"].contains tag then
    let found := implicitTag tag text
    found == tag || tag == "!!float" && found == "!!int" && !isBeyondSigned text
  else true

/-- The words for truth in older versions of the language, which are strings now. -/
def retiredTrueWords : List String := ["y", "Y", "yes", "Yes", "YES", "on", "On", "ON"]

/-- The words for falsehood in older versions of the language, which are strings now. -/
def retiredFalseWords : List String := ["n", "N", "no", "No", "NO", "off", "Off", "OFF"]

/-- The numbers in base sixty of older versions of the language. -/
def sexagesimalPattern : Pattern :=
  .seq [signPattern, digitPattern, .many (.one fun c => c.isDigit || c == '_'),
    .many1 (.seq [.char ':', .optional (.one fun c => '0' ≤ c && c ≤ '5'), digitPattern]),
    .optional (.both (.char '.') (.many (.one fun c => c.isDigit || c == '_')))]

/-- Whether older versions of the language give a string another meaning. -/
def isRetired (text : String) : Bool :=
  retiredTrueWords.contains text || retiredFalseWords.contains text ||
    sexagesimalPattern.matchesWhole text.toList

end Detection.Yaml

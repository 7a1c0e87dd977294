import Detection.Defect
import Detection.Text.Numeral
import Detection.Text.Pieces
import Detection.Text.Quoted

/-!
# Values

What a field is compared with. A number keeps its text exactly as written, so
that leading zeros and digits beyond any machine word survive. A pattern is a
text whose stars stand for any run of characters when it is marked special. A
comparison that only asks for presence may have no value at all.
-/
namespace Detection

open Text

/-- A literal of the common query model. -/
inductive Value
  | number (lexeme : String)
  | text (text : String)
  | pattern (text : String) (special : Bool)
  | list (items : List Value)
  | absent
  deriving Repr, Inhabited, BEq

namespace Value

mutual

/-- The text of a value; a list is written in brackets. There is none for a
missing value, nor for a list that holds one. -/
def plain? : Value → Option String
  | number lexeme => some lexeme
  | text content => some content
  | pattern content _ => some content
  | list items => (plainAll? items).map fun texts => "[" ++ join ", " texts ++ "]"
  | absent => none

def plainAll? : List Value → Option (List String)
  | [] => some []
  | item :: others => do
    let first ← item.plain?
    let rest ← plainAll? others
    return first :: rest

end

def describe (value : Value) : String :=
  match value.plain?, value with
  | some content, _ => content
  | none, absent => "%!s(<nil>)"
  | none, _ => "%!s(PANIC=String method: runtime error: invalid memory address or " ++
      "nil pointer dereference)"

/-- The text of a value, where the caller relies on there being one. -/
def content (value : Value) : Except Defect String :=
  match value.plain?, value with
  | some content, _ => .ok content
  | none, absent => .error (.unknownValue "tokens")
  | none, _ => .error .missing

mutual

/-- The single values in a value, from left to right. -/
def scalars : Value → Except Defect (List Value)
  | list items => scalarsAll items
  | absent => .error (.unknownValue "tokens")
  | scalar => .ok [scalar]

/-- The single values in several values, from left to right. -/
def scalarsAll : List Value → Except Defect (List Value)
  | [] => .ok []
  | item :: others => do
    let first ← item.scalars
    let rest ← scalarsAll others
    return first ++ rest

end

def isNumber : Value → Bool
  | number _ => true
  | _ => false

/-- Whether the text of a number has neither a point nor an exponent. -/
def isInteger (lexeme : String) : Bool :=
  !containsAny lexeme ['.', 'e', 'E']

end Value

/-- Why a text is no number, with that text. -/
structure NumberError where
  text : String
  fault : NumeralFault

/-- The message for a text that is no number. -/
def NumberError.message (error : NumberError) : String :=
  "strconv.ParseFloat: parsing " ++ quote error.text ++ ": " ++
    match error.fault with
    | .malformed => "invalid syntax"
    | .outOfRange => "value out of range"

def Value.ofNumeral (text : String) : Except NumberError Value :=
  match checkNumeral text.toList with
  | .ok () => .ok (.number text)
  | .error fault => .error ⟨text, fault⟩

end Detection

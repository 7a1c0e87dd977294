/-!
# Bytes in base sixty-four

Three bytes are written as four symbols of six bits each. A last group of one or
two bytes is filled up with equals signs, which may not be left out. Line breaks
may stand anywhere and count for nothing; any other character is refused.
-/
namespace Detection.Text.Base64

def symbolValue? (c : Char) : Option Nat :=
  if c.isUpper then some (c.toNat - 65)
  else if c.isLower then some (c.toNat - 71)
  else if c.isDigit then some (c.toNat + 4)
  else if c == '+' then some 62
  else if c == '/' then some 63
  else none

/-- The byte that a number stands for, without the bits above the lowest eight. -/
def byteOf (value : Nat) : UInt8 :=
  UInt8.ofNat value

/-- The bytes of groups of symbols. The last group may be filled up. -/
def decodeGroups : List Char → Option (List UInt8)
  | [] => some []
  | [a, b, '=', '='] => do
    let value := (← symbolValue? a) * 64 + (← symbolValue? b)
    return [byteOf (value / 16)]
  | [a, b, c, '='] => do
    let value := ((← symbolValue? a) * 64 + (← symbolValue? b)) * 64 + (← symbolValue? c)
    return [byteOf (value / 1024), byteOf (value / 4)]
  | a :: b :: c :: d :: rest => do
    let value := (((← symbolValue? a) * 64 + (← symbolValue? b)) * 64 + (← symbolValue? c)) * 64 +
      (← symbolValue? d)
    return byteOf (value / 65536) :: byteOf (value / 256) :: byteOf value :: (← decodeGroups rest)
  | _ => none

def decode? (text : List Char) : Option (List UInt8) :=
  decodeGroups (text.filter fun c => c != '\n' && c != '\r')

end Detection.Text.Base64

/-!
# Characters from bytes

Bytes are read as the encoding of characters. A byte that does not begin the
shortest encoding of a character is read on its own, as the character that
stands for what cannot be read, so no bytes are refused and none are lost.
-/
namespace Detection.Text

/-- The character with a code, if there is one. -/
def charOfCode? (code : Nat) : Option Char :=
  if h : code.isValidChar then some (Char.ofNatAux code h) else none

/-- The first byte of an encoding: the number of bytes behind it, the part of the
code that it gives, and the least code that needs so many bytes. -/
structure LeadByte where
  tail : Nat
  part : Nat
  least : Nat
  deriving Repr

/-- What a byte says as the first of an encoding. -/
def LeadByte.ofByte? (byte : UInt8) : Option LeadByte :=
  let code := byte.toNat
  if code < 0x80 then some ⟨0, code, 0⟩
  else if code < 0xc0 then none
  else if code < 0xe0 then some ⟨1, code - 0xc0, 0x80⟩
  else if code < 0xf0 then some ⟨2, code - 0xe0, 0x800⟩
  else if code < 0xf8 then some ⟨3, code - 0xf0, 0x10000⟩
  else none

/-- Whether a byte stands behind the first of an encoding. -/
def isTailByte (byte : UInt8) : Bool :=
  0x80 ≤ byte.toNat && byte.toNat < 0xc0

/-- The code that further bytes complete. -/
def addTail (code : Nat) : Nat → List UInt8 → Option Nat
  | 0, _ => some code
  | _ + 1, [] => none
  | count + 1, byte :: rest =>
    if isTailByte byte then addTail (code * 64 + (byte.toNat - 0x80)) count rest else none

/-- The character whose encoding begins with a byte, and the number of bytes behind
the first one that belong to it. -/
def charAt? (byte : UInt8) (rest : List UInt8) : Option (Char × Nat) := do
  let lead ← LeadByte.ofByte? byte
  let code ← addTail lead.part lead.tail rest
  guard (lead.least ≤ code)
  return (← charOfCode? code, lead.tail)

/-- The characters that bytes encode, where the first `skipped` bytes belong to a
character that has been read. -/
def charsFrom (skipped : Nat) : List UInt8 → List Char
  | [] => []
  | byte :: rest =>
    match skipped with
    | more + 1 => charsFrom more rest
    | 0 =>
      match charAt? byte rest with
      | some (c, tail) => c :: charsFrom tail rest
      | none => '\ufffd' :: charsFrom 0 rest

def charsOfBytes (bytes : List UInt8) : List Char :=
  charsFrom 0 bytes

end Detection.Text

import Detection.Text.Printable

/-!
# Quoted text in messages

Messages show a piece of input between double quotes. Printable characters
stand for themselves; the quote and the backslash are escaped; other characters
are written by a short escape or by their code. A message may show only the
first bytes of a text, and the cut can fall inside the encoding of a character:
the bytes that are left of it are then shown one by one.
-/
namespace Detection.Text

/-- The lower-case hexadecimal digits of a number, at least `width` of them. -/
def hexDigits (width code : Nat) : List Char :=
  let digits := Nat.toDigits 16 code
  List.replicate (width - digits.length) '0' ++ digits

/-- A character as it stands inside a quoted text. -/
def quotedChar (c : Char) : List Char :=
  if c == '"' || c == '\\' then ['\\', c]
  else if isPrintable c then [c]
  else match c.toNat with
    | 7 => ['\\', 'a']
    | 8 => ['\\', 'b']
    | 9 => ['\\', 't']
    | 10 => ['\\', 'n']
    | 11 => ['\\', 'v']
    | 12 => ['\\', 'f']
    | 13 => ['\\', 'r']
    | code =>
      if code < 32 || code == 127 then '\\' :: 'x' :: hexDigits 2 code
      else if code < 65536 then '\\' :: 'u' :: hexDigits 4 code
      else '\\' :: 'U' :: hexDigits 8 code

def quote (text : String) : String :=
  String.ofList ('"' :: text.toList.flatMap quotedChar ++ ['"'])

/-- The number of bytes in the encoding of a text. -/
def byteLength (text : List Char) : Nat :=
  text.foldl (fun size c => size + c.utf8Size) 0

/-- The bytes that encode one character. -/
def charBytes (c : Char) : List UInt8 :=
  (String.singleton c).toUTF8.toList

/-- The first `limit` bytes of a text: the characters that fit whole, and the
bytes of the character that the cut divides. -/
def cutBytes : Nat → List Char → List Char × List UInt8
  | _, [] => ([], [])
  | limit, c :: rest =>
    if c.utf8Size ≤ limit then
      let (chars, bytes) := cutBytes (limit - c.utf8Size) rest
      (c :: chars, bytes)
    else ([], (charBytes c).take limit)

/-- The first `limit` bytes of a text between double quotes. -/
def quoteCut (limit : Nat) (text : List Char) : String :=
  let (chars, bytes) := cutBytes limit text
  String.ofList ('"' :: chars.flatMap quotedChar ++
    bytes.flatMap (fun byte => '\\' :: 'x' :: hexDigits 2 byte.toNat) ++ ['"'])

end Detection.Text

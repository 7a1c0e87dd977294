import Detection.Yaml.Node

/-!
# YAML lexemes

The pieces from which a YAML text is built, with the line on which each starts.
Some of them are not written: where a block collection begins or ends is told
by indentation, and an entry of a mapping begins with a key whether or not a
question mark stands before it.
-/
namespace Detection.Yaml

/-- The smallest units of a YAML text. -/
inductive Lexeme
  | versionDirective (major minor : Nat)
  | tagDirective (handle lead : String)
  | documentStart
  | documentEnd
  | streamEnd
  | blockSequenceStart
  | blockMappingStart
  | blockEnd
  | flowSequenceStart
  | flowSequenceEnd
  | flowMappingStart
  | flowMappingEnd
  | blockEntry
  | flowEntry
  | key
  | value
  | reference (name : String)
  | anchor (name : String)
  | tag (handle tail : String)
  | scalar (text : String) (style : Style)
  deriving DecidableEq, Repr, Inhabited

/-- A lexeme and the line on which it starts, counted from one. -/
structure PlacedLexeme where
  lexeme : Lexeme
  line : Nat
  deriving Repr, Inhabited

/-- A line break. All breaks but two are read as line feeds. -/
def isLineBreak (c : Char) : Bool :=
  c == '\n' || c == '\r' || c == '\u0085' || c == '\u2028' || c == '\u2029'

def isTabOrSpace (c : Char) : Bool :=
  c == ' ' || c == '\t'

/-- Whether nothing, white space or a line break comes next. -/
def atGap : List Char → Bool
  | [] => true
  | c :: _ => isTabOrSpace c || isLineBreak c

/-- The text with one line feed for each of the usual line breaks. -/
def unifyBreaks : List Char → List Char
  | '\r' :: '\n' :: rest => '\n' :: unifyBreaks rest
  | c :: rest =>
    (if c == '\r' || c == '\u0085' then '\n' else c) :: unifyBreaks rest
  | [] => []

/-- Whether a character may occur in a YAML text. -/
def isAllowed (c : Char) : Bool :=
  let code := c.toNat
  c == '\t' || c == '\n' || c == '\r' || (0x20 ≤ code && code ≤ 0x7e) || code == 0x85 ||
    (0xa0 ≤ code && code ≤ 0xd7ff) || (0xe000 ≤ code && code ≤ 0xfffd) || 0x10000 ≤ code

/-- How far the text has been read. -/
structure Place where
  index : Nat := 0
  line : Nat := 1
  column : Nat := 0
  deriving Repr, Inhabited

def Place.after (place : Place) (c : Char) : Place :=
  if isLineBreak c then ⟨place.index + 1, place.line + 1, 0⟩
  else ⟨place.index + 1, place.line, place.column + 1⟩

/-- The place behind several characters. -/
def Place.afterAll (place : Place) (text : List Char) : Place :=
  text.foldl Place.after place

/-- Whether a text begins with `---` or `...` and a gap. -/
def startsDocumentMark (text : List Char) : Bool :=
  match text with
  | '-' :: '-' :: '-' :: rest => atGap rest
  | '.' :: '.' :: '.' :: rest => atGap rest
  | _ => false

end Detection.Yaml

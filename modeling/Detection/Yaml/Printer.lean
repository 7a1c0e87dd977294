import Detection.Yaml.Reader

/-!
# Printing YAML nodes

Collections are written one entry a line and indented by four; a sequence inside
a sequence is indented by two. A scalar is written plain if it then reads back
as itself, else between single quotes, and between double quotes where single
ones cannot express it. A text with line breaks becomes a literal block. Lines
are never broken.
-/
namespace Detection.Yaml

open Text

/-- The characters that need no escape between double quotes. -/
def isPrintableChar (c : Char) : Bool :=
  let code := c.toNat
  code == 0x0a || (0x20 ≤ code && code ≤ 0x7e) || (0xa0 ≤ code && code ≤ 0xd7ff) ||
    (0xe000 ≤ code && code ≤ 0xfffd && code != 0xfeff)

/-- What keeps a text from being written in a style. -/
structure Shape where
  multiline : Bool := false
  plainAllowed : Bool := true
  flowPlainAllowed : Bool := true
  singleAllowed : Bool := true
  blockAllowed : Bool := true
  deriving Repr

/-- The characters with a meaning at the beginning of a plain scalar. -/
def leadingIndicators : List Char :=
  "#,[]\x7b\x7d&*!|>'\"%@`".toList

/-- Whether some place of a text, given by the character before it, its own and
those behind it, has a property. -/
def anyPlace (holds : Option Char → Char → List Char → Bool) (before : Option Char) :
    List Char → Bool
  | [] => false
  | c :: rest => holds before c rest || anyPlace holds (some c) rest

/-- Whether nothing, a space or a tab comes next. -/
def atBlank (rest : List Char) : Bool :=
  rest.head?.all isTabOrSpace

/-- Whether a text begins with three dashes or three dots. -/
def startsLikeMark (text : List Char) : Bool :=
  startsWith "---".toList text || startsWith "...".toList text

/-- Whether a text has a character that means something else outside of any flow
collection. -/
def hasBlockIndicator (text : List Char) : Bool :=
  startsLikeMark text || anyPlace (fun before c rest =>
    match before with
    | none => leadingIndicators.contains c || "?:-".toList.contains c && atBlank rest
    | some previous =>
      c == ':' && atBlank rest ||
        c == '#' && (isTabOrSpace previous || isLineBreak previous)) none text

/-- Whether a text has a character that means something else inside a flow collection. -/
def hasFlowIndicator (text : List Char) : Bool :=
  startsLikeMark text || anyPlace (fun before c rest =>
    match before with
    | none => leadingIndicators.contains c || "?:".toList.contains c || c == '-' && atBlank rest
    | some previous =>
      ",?[]\x7b\x7d:".toList.contains c ||
        c == '#' && (isTabOrSpace previous || isLineBreak previous)) none text

def shapeOf (text : List Char) : Shape :=
  if text.isEmpty then { flowPlainAllowed := false, blockAllowed := false }
  else
    let edge (c? : Option Char) := c?.any fun c => c == ' ' || isLineBreak c
    let breaks := text.any isLineBreak
    let special := text.any fun c => c != '\t' && !isPrintableChar c
    let tab := text.contains '\t'
    let breakSpace := anyPlace (fun before c _ => before.any isLineBreak && c == ' ') none text
    let spaceBreak := anyPlace (fun before c _ => before == some ' ' && isLineBreak c) none text
    let plain := !(edge text.head? || edge text.getLast? || breakSpace || spaceBreak || tab ||
      special || breaks)
    { multiline := breaks
      plainAllowed := plain && !hasBlockIndicator text
      flowPlainAllowed := plain && !hasFlowIndicator text
      singleAllowed := !(breakSpace || spaceBreak || tab || special)
      blockAllowed := !(text.getLast? == some ' ' || spaceBreak || special) }

/-- How a scalar will be written: its style and the tag in front of it. -/
structure Presentation where
  style : Style
  tag : Option String
  deriving Repr

/-- The style in which a scalar is to be written, and its tag if the text alone
would be taken for something else. -/
def Scalar.wanted (scalar : Scalar) : Presentation :=
  if scalar.tag == "!!str" && scalar.style != .plain then ⟨scalar.style, none⟩
  else
    let natural := plainTag scalar.text == scalar.tag
    let forced := !natural && scalar.tag == "!!str"
    let style :=
      if scalar.style != .plain then scalar.style
      else if scalar.text.toList.contains '\n' then .literal
      else if forced then .doubleQuoted
      else .plain
    ⟨style, if natural || forced then none else some scalar.tag⟩

/-- The style in which a text can be written, given the one that is wanted. -/
def Shape.settle (shape : Shape) (isEmpty key : Bool) (wanted : Style) : Style :=
  let style := if key && shape.multiline then .doubleQuoted else wanted
  let style :=
    if style == .plain && (!shape.plainAllowed || isEmpty && key) then .singleQuoted else style
  let style := if style == .singleQuoted && !shape.singleAllowed then .doubleQuoted else style
  if (style == .literal || style == .folded) && (!shape.blockAllowed || key) then .doubleQuoted
  else style

/-- What has been printed, last character first, with the column, whether the
last character was white space, and whether the line holds nothing but
indentation and the marks of entries. -/
structure Output where
  printed : List Char := []
  column : Nat := 0
  afterSpace : Bool := true
  indenting : Bool := true

namespace Output

def put (output : Output) (c : Char) : Output :=
  { output with printed := c :: output.printed, column := output.column + 1 }

def putAll (output : Output) (text : List Char) : Output :=
  text.foldl put output

def putBreak (output : Output) : Output :=
  { output with printed := '\n' :: output.printed, column := 0, indenting := true }

def putTextBreak (output : Output) (c : Char) : Output :=
  if c == '\n' then output.putBreak
  else { output.put c with column := 0, indenting := true }

/-- Go to a column, on a new line unless the current one has room. -/
def indentTo (output : Output) (indent : Nat) : Output :=
  let fresh :=
    if !output.indenting || output.column > indent ||
        output.column == indent && !output.afterSpace then output.putBreak
    else output
  { fresh.putAll (List.replicate (indent - fresh.column) ' ') with afterSpace := true }

/-- Print a mark, behind a space if it needs one. -/
def indicator (output : Output) (mark : String) (spaced keepsIndenting : Bool) : Output :=
  let ready := if spaced && !output.afterSpace then output.put ' ' else output
  { ready.putAll mark.toList with
    afterSpace := false, indenting := ready.indenting && keepsIndenting }

def tag (output : Output) (tag : String) : Output :=
  let ready := if output.afterSpace then output else output.put ' '
  { ready.putAll tag.toList with afterSpace := false, indenting := false }

def plain (output : Output) (text : List Char) : Output :=
  let ready := if text.isEmpty || output.afterSpace then output else output.put ' '
  { ready.putAll text with afterSpace := false, indenting := false }

/-- Print the inside of single quotes. -/
def singleQuotedFrom (indent : Nat) (breaking : Bool) (output : Output) : List Char → Output
  | [] => output
  | c :: rest =>
    if c == ' ' then singleQuotedFrom indent breaking (output.put c) rest
    else if isLineBreak c then
      let ready := if !breaking && c == '\n' then output.putBreak else output
      singleQuotedFrom indent true (ready.putTextBreak c) rest
    else
      let ready := if breaking then output.indentTo indent else output
      let ready := if c == '\'' then ready.put c else ready
      singleQuotedFrom indent false { ready.put c with indenting := false } rest

/-- Print a text between single quotes. -/
def singleQuoted (output : Output) (indent : Nat) (text : List Char) : Output :=
  let opened := output.indicator "'" true false
  let inside := singleQuotedFrom indent false opened text
  { inside.indicator "'" false false with afterSpace := false, indenting := false }

/-- The escape of a character between double quotes. -/
def escapeOf (c : Char) : List Char :=
  match c.toNat with
  | 0x00 => ['\\', '0']
  | 0x07 => ['\\', 'a']
  | 0x08 => ['\\', 'b']
  | 0x09 => ['\\', 't']
  | 0x0a => ['\\', 'n']
  | 0x0b => ['\\', 'v']
  | 0x0c => ['\\', 'f']
  | 0x0d => ['\\', 'r']
  | 0x1b => ['\\', 'e']
  | 0x22 => ['\\', '"']
  | 0x5c => ['\\', '\\']
  | 0x85 => ['\\', 'N']
  | 0xa0 => ['\\', '_']
  | 0x2028 => ['\\', 'L']
  | 0x2029 => ['\\', 'P']
  | code =>
    if code ≤ 0xff then '\\' :: 'x' :: (hexDigits 2 code).map Char.toUpper
    else if code ≤ 0xffff then '\\' :: 'u' :: (hexDigits 4 code).map Char.toUpper
    else '\\' :: 'U' :: (hexDigits 8 code).map Char.toUpper

/-- Print a text between double quotes. A text that begins with a byte order mark
is escaped throughout. -/
def doubleQuoted (output : Output) (text : List Char) : Output :=
  let marked := text.head? == some '\ufeff'
  let inside := text.flatMap fun c =>
    if marked || !isPrintableChar c || isLineBreak c || c == '"' || c == '\\' then escapeOf c
    else [c]
  { ((output.indicator "\"" true false).putAll inside).indicator "\"" false false with
    afterSpace := false, indenting := false }

/-- The indicators of a block: an indentation if the text begins with white space,
and what becomes of the line breaks at its end. -/
def blockHints (text : List Char) : List Char :=
  let leading := text.head?.any fun c => c == ' ' || isLineBreak c
  let chomping := match text.reverse with
    | [] => ['-']
    | c :: others =>
      if !isLineBreak c then ['-']
      else match others with
        | [] => ['+']
        | d :: _ => if isLineBreak d then ['+'] else []
  (if leading then ['4'] else []) ++ chomping

/-- Print the lines of a literal block. -/
def literalFrom (indent : Nat) (breaking : Bool) (output : Output) : List Char → Output
  | [] => output
  | c :: rest =>
    if isLineBreak c then literalFrom indent true (output.putTextBreak c) rest
    else
      let ready := if breaking then output.indentTo indent else output
      literalFrom indent false { ready.put c with indenting := false } rest

def literal (output : Output) (indent : Nat) (text : List Char) : Output :=
  let opened := output.indicator "|" true false
  let hinted := (blockHints text).foldl
    (fun ready hint => ready.indicator (String.singleton hint) false false) opened
  literalFrom indent true { hinted with afterSpace := true } text

/-- Print a scalar. `indent` is the column of its further lines. -/
def scalar (output : Output) (indent : Nat) (key : Bool) (scalar : Scalar) : Output :=
  let text := scalar.text.toList
  let wanted := scalar.wanted
  let ready := match wanted.tag with
    | some tag => output.tag tag
    | none => output
  match (shapeOf text).settle text.isEmpty key wanted.style with
  | .plain => ready.plain text
  | .singleQuoted => ready.singleQuoted indent text
  | .doubleQuoted => ready.doubleQuoted text
  | .literal | .folded => ready.literal indent text

end Output

/-- Where a node stands, which decides how far it is indented. -/
inductive Position
  | root
  | entry (indent : Nat)
  | item (indent : Nat)

def Position.collection : Position → Nat
  | root => 0
  | entry indent => 4 * ((indent + 4) / 4)
  | item indent => indent + 2

/-- The column of the further lines of a scalar. -/
def Position.scalarLines : Position → Nat
  | root => 4
  | position => position.collection

/-- Whether a key fits on the line of its value. -/
def isSimpleKey : Node → Bool
  | .scalar content =>
    let tagLength := (content.wanted.tag.map String.utf8ByteSize).getD 0
    !content.text.toList.any isLineBreak && tagLength + content.text.utf8ByteSize ≤ 128
  | .sequence _ _ items => items.isEmpty
  | .mapping _ _ entries => entries.isEmpty
  | .reference .. => true

mutual

def printNode (output : Output) (position : Position) (key : Bool) : Node → Output
  | .scalar content => output.scalar position.scalarLines key content
  | .sequence _ _ items =>
    if items.isEmpty then (output.indicator "[" true false).putAll [']']
    else printItems position.collection output items
  | .mapping _ _ entries =>
    if entries.isEmpty then (output.indicator "\x7b" true false).putAll ['\x7d']
    else printEntries position.collection output entries
  | .reference name _ _ => output.indicator ("*" ++ name) true false

def printItems (indent : Nat) (output : Output) : List Node → Output
  | [] => output
  | item :: others =>
    let marked := (output.indentTo indent).indicator "-" true true
    printItems indent (printNode marked (.item indent) false item) others

/-- Print the entries of a mapping. A key that does not fit on the line of its
value is marked. -/
def printEntries (indent : Nat) (output : Output) : List (Node × Node) → Output
  | [] => output
  | (name, value) :: others =>
    let simple := isSimpleKey name
    let start := output.indentTo indent
    let named := printNode (if simple then start else start.indicator "?" true true)
      (.entry indent) simple name
    let marked :=
      if simple then named.indicator ":" false false
      else (named.indentTo indent).indicator ":" true true
    printEntries indent (printNode marked (.entry indent) false value) others

end

def print (node : Node) : String :=
  String.ofList ((printNode {} .root false node).indentTo 0).printed.reverse

/-- A node as it reads back once it has been printed alone. -/
def settle? (node : Node) : Option Node :=
  (read? (print node)).join

/-- A text that reads back as itself in every version of the language. -/
def Node.ofValue (text : String) : Node :=
  .scalar
    { text
      style :=
        if text.toList.contains '\n' then .literal
        else if plainTag text == "!!str" && !isRetired text then .plain
        else .doubleQuoted }

end Detection.Yaml

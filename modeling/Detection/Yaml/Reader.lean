import Detection.Yaml.Lexeme.Scanner
import Detection.Yaml.Tag

/-!
# Reading a YAML document

From the lexemes of a text to the node it stands for. Only the first document
of a text is read, and what stands behind it is looked at no further than two
lexemes ahead.
-/
namespace Detection.Yaml

/-- What the reader knows at a place: the lexemes to come, the handles of tags,
and the anchored nodes, the latest first. An anchor has no node while it is
being read. -/
structure ReadState where
  ahead : List PlacedLexeme
  complete : Bool
  handles : List (String × String) := [("!", "!"), ("!!", "tag:yaml.org,2002:")]
  anchors : List (String × Option Node) := []

/-- A step of the reader, which can fail. -/
abbrev Reading := StateT ReadState Option

namespace Reading

/-- The next lexeme. A text that could not be cut to its end is refused as soon
as the cut comes within two lexemes. -/
def peek : Reading PlacedLexeme := fun state =>
  match state.ahead with
  | first :: others =>
    if state.complete || others.length ≥ 2 then some (first, state) else none
  | [] => if state.complete then some (⟨.streamEnd, 0⟩, state) else none

def skip : Reading Unit :=
  modify fun state => { state with ahead := state.ahead.tail }

def fail {α : Type} : Reading α := fun _ => none

/-- Whether the next lexeme is one of some. -/
def nextIs (wanted : List Lexeme) : Reading Bool := do
  return wanted.contains (← peek).lexeme

def shortTag (tag : String) : String :=
  match "tag:yaml.org,2002:".toList.isPrefixOf? tag.toList with
  | some tail => "!!" ++ String.ofList tail
  | none => tag

/-- The tag that a handle and a tail stand for. -/
def resolveTag (handle tail : String) : Reading String := do
  if handle == "" then return shortTag tail
  else match (← get).handles.lookup handle with
    | some lead => return shortTag (lead ++ tail)
    | none => fail

/-- The anchor and the tag before a node. -/
structure Properties where
  anchor : Option String := none
  tag : String := ""
  line : Nat
  deriving Inhabited

/-- Read the anchor and the tag before a node, in any order. -/
def properties : Reading Properties := do
  let first ← peek
  match first.lexeme with
  | .anchor name =>
    skip
    match (← peek).lexeme with
    | .tag handle tail =>
      skip
      return { anchor := name, tag := ← resolveTag handle tail, line := first.line }
    | _ => return { anchor := name, line := first.line }
  | .tag handle tail =>
    skip
    match (← peek).lexeme with
    | .anchor name =>
      skip
      return { anchor := name, tag := ← resolveTag handle tail, line := first.line }
    | _ => return { tag := ← resolveTag handle tail, line := first.line }
  | _ => return { line := first.line }

def emptyNode (line : Nat) : Node :=
  .scalar { text := "", tag := "!!null", line }

/-- The scalar with a text, a style and properties. -/
def scalarNode (text : String) (style : Style) (properties : Properties) : Node :=
  let tagged := properties.tag != "" && properties.tag != "!"
  let tag :=
    if tagged then properties.tag
    else if style == .plain then untaggedTag text
    else "!!str"
  .scalar { text, tag, style, tagged, line := properties.line }

/-- Declare an anchor whose node is still to be read; the result tells it apart. -/
def openAnchor (anchor : Option String) : Reading Nat := do
  let depth := (← get).anchors.length
  match anchor with
  | some name => modify fun state => { state with anchors := (name, none) :: state.anchors }
  | none => pure ()
  return depth

def closeAnchor (anchor : Option String) (depth : Nat) (node : Node) : Reading Node := do
  if anchor.isSome then
    modify fun state =>
      let newer := state.anchors.length - depth - 1
      { state with
        anchors := state.anchors.modify newer fun (name, _) => (name, some node) }
  return node

/-- A node of which only the properties are written. -/
def unwritten (given : Properties) : Reading Node :=
  if given.anchor.isSome || given.tag != "" then return scalarNode "" .plain given else fail

mutual

/-- Read a node. `block` says whether block collections may begin here, and
`indentless` whether a sequence may begin without being indented. -/
def node (fuel : Nat) (block indentless : Bool) : Reading Node :=
  match fuel with
  | 0 => fail
  | fuel + 1 => do
    match (← peek) with
    | ⟨.reference name, line⟩ =>
      skip
      match (← get).anchors.lookup name with
      | some target? => return .reference name line target?
      | none => fail
    | _ =>
      let given ← properties
      let depth ← openAnchor given.anchor
      closeAnchor given.anchor depth (← content fuel block indentless given)

/-- Read the node behind its properties. -/
def content (fuel : Nat) (block indentless : Bool) (given : Properties) : Reading Node :=
  match fuel with
  | 0 => fail
  | fuel + 1 => do
    match (← peek).lexeme with
    | .blockEntry =>
      if indentless then return .sequence false given.line (← indentlessItems fuel)
      else unwritten given
    | .scalar text style =>
      skip
      return scalarNode text style given
    | .flowSequenceStart =>
      skip
      return .sequence true given.line (← flowItems fuel true)
    | .flowMappingStart =>
      skip
      return .mapping true given.line (← flowEntries fuel true)
    | .blockSequenceStart =>
      if block then
        skip
        return .sequence false given.line (← blockItems fuel)
      else unwritten given
    | .blockMappingStart =>
      if block then
        skip
        return .mapping false given.line (← blockEntries fuel)
      else unwritten given
    | _ => unwritten given

/-- Read a node unless one of some lexemes comes next. -/
def nodeUnless (fuel : Nat) (stops : List Lexeme) (block indentless : Bool) : Reading Node :=
  match fuel with
  | 0 => fail
  | fuel + 1 => do
    if ← nextIs stops then return emptyNode (← peek).line
    else node fuel block indentless

def blockItems (fuel : Nat) : Reading (List Node) :=
  match fuel with
  | 0 => fail
  | fuel + 1 => do
    match (← peek).lexeme with
    | .blockEntry =>
      skip
      let item ← nodeUnless fuel [.blockEntry, .blockEnd] true false
      return item :: (← blockItems fuel)
    | .blockEnd =>
      skip
      return []
    | _ => fail

/-- The items of a block sequence that is indented no more than its key. -/
def indentlessItems (fuel : Nat) : Reading (List Node) :=
  match fuel with
  | 0 => fail
  | fuel + 1 => do
    match (← peek).lexeme with
    | .blockEntry =>
      skip
      let item ← nodeUnless fuel [.blockEntry, .key, .value, .blockEnd] true false
      return item :: (← indentlessItems fuel)
    | _ => return []

def blockEntries (fuel : Nat) : Reading (List (Node × Node)) :=
  match fuel with
  | 0 => fail
  | fuel + 1 => do
    match (← peek).lexeme with
    | .key =>
      skip
      let key ← nodeUnless fuel [.key, .value, .blockEnd] true true
      let value ← valueOrEmpty fuel [.key, .value, .blockEnd] true
      return (key, value) :: (← blockEntries fuel)
    | .blockEnd =>
      skip
      return []
    | _ => fail

/-- The value behind its mark, or none. -/
def valueOrEmpty (fuel : Nat) (stops : List Lexeme) (block : Bool) : Reading Node :=
  match fuel with
  | 0 => fail
  | fuel + 1 => do
    match (← peek) with
    | ⟨.value, _⟩ =>
      skip
      nodeUnless fuel stops block block
    | ⟨_, line⟩ => return emptyNode line

/-- The items of a flow sequence up to its end. -/
def flowItems (fuel : Nat) (first : Bool) : Reading (List Node) :=
  match fuel with
  | 0 => fail
  | fuel + 1 => do
    if ← nextIs [.flowSequenceEnd] then
      skip
      return []
    unless first do
      if ← nextIs [.flowEntry] then skip else fail
    match (← peek) with
    | ⟨.flowSequenceEnd, _⟩ =>
      skip
      return []
    | ⟨.key, line⟩ =>
      skip
      let stops := [.value, .flowEntry, .flowSequenceEnd]
      let unkeyed ← nextIs stops
      let key ← nodeUnless fuel stops false false
      if unkeyed then skip
      let value ← valueOrEmpty fuel [.flowEntry, .flowSequenceEnd] false
      return .mapping true line [(key, value)] :: (← flowItems fuel false)
    | _ =>
      let item ← node fuel false false
      return item :: (← flowItems fuel false)

/-- The entries of a flow mapping up to its end. -/
def flowEntries (fuel : Nat) (first : Bool) : Reading (List (Node × Node)) :=
  match fuel with
  | 0 => fail
  | fuel + 1 => do
    if ← nextIs [.flowMappingEnd] then
      skip
      return []
    unless first do
      if ← nextIs [.flowEntry] then skip else fail
    match (← peek) with
    | ⟨.flowMappingEnd, _⟩ =>
      skip
      return []
    | ⟨.key, _⟩ =>
      skip
      let key ← nodeUnless fuel [.value, .flowEntry, .flowMappingEnd] false false
      let value ← valueOrEmpty fuel [.flowEntry, .flowMappingEnd] false
      return (key, value) :: (← flowEntries fuel false)
    | ⟨_, line⟩ =>
      let key ← node fuel false false
      return (key, emptyNode line) :: (← flowEntries fuel false)

end

/-- Read the directives of a document. A version has to be 1.1 and may be given
once, and so may each handle. -/
def directives (fuel : Nat) (versioned : Bool) (declared : List String) : Reading Unit :=
  match fuel with
  | 0 => fail
  | fuel + 1 => do
    match (← peek).lexeme with
    | .versionDirective major minor =>
      if versioned || major != 1 || minor != 1 then fail
      skip
      directives fuel true declared
    | .tagDirective handle lead =>
      if declared.contains handle then fail
      skip
      modify fun state => { state with handles := (handle, lead) :: state.handles }
      directives fuel versioned (handle :: declared)
    | _ => pure ()

/-- Read the first document, if there is one. -/
def document (fuel : Nat) : Reading (Option Node) := do
  match (← peek).lexeme with
  | .streamEnd => return none
  | .documentStart | .versionDirective .. | .tagDirective .. =>
    directives fuel false []
    if ← nextIs [.documentStart] then skip else fail
    match (← peek) with
    | ⟨lexeme, line⟩ =>
      let stops := match lexeme with
        | .versionDirective .. | .tagDirective .. | .documentStart | .documentEnd
        | .streamEnd => true
        | _ => false
      let root ← if stops then pure (emptyNode line) else node fuel true false
      let _ ← peek
      return some root
  | _ =>
    let root ← node fuel true false
    let _ ← peek
    return some root

end Reading

/-- Read the first document of a text. The outer result is absent for a text that
is not YAML, the inner one for a text without a document. -/
def read? (text : String) : Option (Option Node) :=
  let scanned := scan text.toList
  let start : ReadState := { ahead := scanned.lexemes, complete := scanned.complete }
  (Reading.document (4 * scanned.lexemes.length + 8) start).map Prod.fst

end Detection.Yaml

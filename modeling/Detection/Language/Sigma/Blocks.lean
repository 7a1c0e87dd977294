import Detection.Render.Query

/-!
# Detection blocks

A condition tree is written as named blocks and an expression over their names.
Comparisons of one field that are joined by OR share a block with a list of
values, and comparisons of several fields that are joined by AND share a block
with one entry each. Everything else gets a block of its own.
-/
namespace Detection.Sigma

open Text

/-- Stars and question marks in a value are escaped, because they would otherwise
be wildcards. -/
def escaping : Escaping where
  rules
    | .value => [Escaping.backslash "*?"]
    | _ => []

/-- A value in a block. -/
inductive Item
  | null
  | number (lexeme : String)
  | text (content : String)
  | list (items : List Item)
  deriving Repr, Inhabited

/-- A key with its value. -/
structure Entry where
  key : String
  value : Item
  deriving Repr, Inhabited

/-- What a block holds. -/
inductive BlockContent
  /-- All entries have to hold. -/
  | all (entries : List Entry)
  /-- One of the entries has to hold. -/
  | any (entries : List Entry)
  /-- One of the words has to occur. -/
  | keywords (items : List Item)
  deriving Repr, Inhabited

/-- A named block. -/
structure Block where
  name : String
  content : BlockContent
  deriving Repr, Inhabited

mutual

/-- The form of a value in a block. Wildcards that a pattern has stay as they are. -/
def itemOf (operator : Operator) : Value → Except Defect Item
  | .number lexeme => .ok (.number lexeme)
  | .text content =>
    .ok (.text (if operator = .regex then content else escaping.escape .value content))
  | .pattern content _ => .ok (.text content)
  | .list items => do return .list (← itemsOfAll operator items)
  | .absent => .error (.unknownValue "tokens")

def itemsOfAll (operator : Operator) : List Value → Except Defect (List Item)
  | [] => .ok []
  | value :: others => do
    let first ← itemOf operator value
    return first :: (← itemsOfAll operator others)

end

/-- The form of a keyword, with stars at its open ends. -/
def keywordItem (operator : Operator) (value : Value) (wildcards : Wildcards) :
    Except Defect Item := do
  match ← itemOf operator value with
  | .text content =>
    let leading := wildcards.leading || operator = .contains || operator = .endsWith
    let trailing := wildcards.trailing || operator = .contains || operator = .startsWith
    return .text ((if leading then "*" else "") ++ content ++ (if trailing then "*" else ""))
  | other => return other

def modifierOf : Operator → String
  | .contains => "|contains"
  | .startsWith => "|startswith"
  | .endsWith => "|endswith"
  | .regex => "|re"
  | .lt => "|lt"
  | .lte => "|lte"
  | .gt => "|gt"
  | .gte => "|gte"
  | _ => ""

/-- The operator whose negation an operator is. -/
def positive? : Operator → Option Operator
  | .neq => some .eq
  | .notContains => some .contains
  | .notRegex => some .regex
  | .isNotNone => some .isNone
  | _ => none

def entryFor (field : String) (operator : Operator) (value : Value) : Except Defect Entry := do
  if operator = .isNone then return ⟨field, .null⟩
  else return ⟨field ++ modifierOf operator, ← itemOf operator value⟩

/-- The blocks written so far. -/
structure Draft where
  selections : Nat := 0
  keywords : Nat := 0
  blocks : List Block := []
  deriving Repr, Inhabited

/-- Writing adds blocks to a draft. -/
abbrev Writing := StateT Draft (Except RenderError)

/-- Add a block of comparisons, and return its name. -/
def newSelection (content : BlockContent) : Writing String :=
  modifyGet fun draft =>
    let name := "selection" ++ toString (draft.selections + 1)
    (name, { draft with
      selections := draft.selections + 1, blocks := draft.blocks ++ [⟨name, content⟩] })

/-- Add a block of words, and return its name. -/
def newKeywords (items : List Item) : Writing String :=
  modifyGet fun draft =>
    let name := "keyword" ++ toString (draft.keywords + 1)
    (name, { draft with
      keywords := draft.keywords + 1, blocks := draft.blocks ++ [⟨name, .keywords items⟩] })

/-- The members of a group that is nested in one of the same kind take its place. -/
def liftMembers (kind : GroupKind) : Tree → List Tree
  | .leaf content => [.leaf content]
  | .group inner members =>
    if inner = kind && (kind = .and || kind = .or) then members else [.group inner members]

mutual

/-- The tree in which no AND stands directly in an AND and no OR in an OR. -/
def flatten : Tree → Tree
  | .leaf content => .leaf content
  | .group kind members => .group kind (flattenMembers kind members)

/-- The members of a group in a flattened tree. -/
def flattenMembers (kind : GroupKind) : List Tree → List Tree
  | [] => []
  | member :: others => liftMembers kind (flatten member) ++ flattenMembers kind others

end

/-- An expression between parentheses, if it is more than a name. -/
def parenthesized (text : String) : String :=
  if text.toList.contains ' ' then "(" ++ text ++ ")" else text

/-- The entry for a leaf that is a comparison, not a negated one, of a field with a
single name. -/
def entryOfLeaf? (naming : FieldNaming) (mapping : SourceMapping) :
    Leaf → Except RenderError (Option Entry)
  | .keyword .. => .ok none
  | .comparison field operator value _ =>
    if operator.negated || operator = .isNotNone then .ok none
    else do
      match ← naming.names mapping field with
      | [name] => return some (← Except.orDefect (entryFor name operator value))
      | _ => return none

/-- The values that an entry contributes to a list. -/
def Item.spread : Item → List Item
  | .list items => items
  | item => [item]

/-- The values of leaves that are all comparisons under one key. -/
def valuesUnder? (naming : FieldNaming) (mapping : SourceMapping) (key : String) :
    List Tree → Except RenderError (Option (List Item))
  | [] => .ok (some [])
  | .leaf content :: others => do
    match ← entryOfLeaf? naming mapping content with
    | some entry =>
      if entry.key == key then
        return (← valuesUnder? naming mapping key others).map (entry.value.spread ++ ·)
      else return none
    | none => return none
  | .group .. :: _ => .ok none

/-- The one entry for an OR of comparisons that share their key. -/
def entryOfAny? (naming : FieldNaming) (mapping : SourceMapping) (members : List Tree) :
    Except RenderError (Option Entry) := do
  match members with
  | .leaf content :: others =>
    match ← entryOfLeaf? naming mapping content with
    | some entry =>
      return (← valuesUnder? naming mapping entry.key others).map fun values =>
        ⟨entry.key, .list (entry.value.spread ++ values)⟩
    | none => return none
  | _ => return none

def keyword? : Tree → Option (Operator × Value × Wildcards)
  | .leaf (.keyword operator value wildcards) => some (operator, value, wildcards)
  | _ => none

/-- The keywords that all of some trees are. -/
def keywords? (members : List Tree) : Option (List (Operator × Value × Wildcards)) :=
  if members.isEmpty then none else members.mapM keyword?

/-- Write an OR as a single block, if it is one of words or of the values of one
field. -/
def mergedOr? (naming : FieldNaming) (mapping : SourceMapping) (members : List Tree) :
    Writing (Option String) := do
  match keywords? members with
  | some words =>
    let items ← words.mapM fun (operator, value, wildcards) =>
      (Except.orDefect (keywordItem operator value wildcards) : Except RenderError Item)
    return some (← newKeywords items)
  | none =>
    match ← (entryOfAny? naming mapping members : Except RenderError (Option Entry)) with
    | some entry => return some (← newSelection (.all [entry]))
    | none => return none

/-- The entry that a member of an AND contributes to a common block. -/
def entryOfMember? (naming : FieldNaming) (mapping : SourceMapping) :
    Tree → Except RenderError (Option Entry)
  | .leaf content => entryOfLeaf? naming mapping content
  | .group .or members => entryOfAny? naming mapping members
  | .group _ _ => .ok none

/-- The entries that the members of an AND contribute to a common block, with
whether each member contributes one. A key occurs once. -/
def sharedEntries (naming : FieldNaming) (mapping : SourceMapping) (taken : List String) :
    List Tree → Except RenderError (List Entry × List Bool)
  | [] => .ok ([], [])
  | member :: others => do
    match ← entryOfMember? naming mapping member with
    | some entry =>
      if taken.contains entry.key then
        let (entries, flags) ← sharedEntries naming mapping taken others
        return (entries, false :: flags)
      else
        let (entries, flags) ← sharedEntries naming mapping (entry.key :: taken) others
        return (entry :: entries, true :: flags)
    | none =>
      let (entries, flags) ← sharedEntries naming mapping taken others
      return (entries, false :: flags)

/-- Write a leaf as a block of its own. -/
def writeLeaf (naming : FieldNaming) (mapping : SourceMapping) : Leaf → Writing String
  | .keyword operator value wildcards => do
    let item ← (Except.orDefect (keywordItem operator value wildcards) : Except RenderError Item)
    newKeywords [item]
  | .comparison field operator value _ => do
    let plain := (positive? operator).getD operator
    let names ← (naming.names mapping field : Except RenderError (List String))
    let entries ← (Except.orDefect (names.mapM (entryFor · plain value)) :
      Except RenderError (List Entry))
    let name ← newSelection (if entries.length > 1 then .any entries else .all entries)
    return if (positive? operator).isSome then "not " ++ name else name

/-- Whether a member of a group is a group other than a negation. -/
def isJoined : Tree → Bool
  | .leaf _ => false
  | .group kind _ => kind ≠ .not

mutual

def writeTree (naming : FieldNaming) (mapping : SourceMapping) : Tree → Writing String
  | .leaf content => writeLeaf naming mapping content
  | .group .single [] => return ""
  | .group .single (member :: _) => writeTree naming mapping member
  | .group .not [] => throw (.defect .missing)
  | .group .not (member :: _) => do
    return "not " ++ parenthesized (← writeTree naming mapping member)
  | .group .or members => do
    match ← mergedOr? naming mapping members with
    | some name => return name
    | none => return join " or " (← writeMembers naming mapping [] members)
  | .group .and members => do
    let (entries, flags) ← (sharedEntries naming mapping [] members :
      Except RenderError (List Entry × List Bool))
    let common ← if entries.isEmpty then pure [] else do
      let name ← newSelection (.all entries)
      pure [name]
    return join " and " (common ++ (← writeMembers naming mapping flags members))

/-- Write the members of a group, without those that a common block holds. -/
def writeMembers (naming : FieldNaming) (mapping : SourceMapping) (held : List Bool) :
    List Tree → Writing (List String)
  | [] => return []
  | member :: others => do
    if held.headD false then writeMembers naming mapping held.tail others
    else
      let text ← writeTree naming mapping member
      let rest ← writeMembers naming mapping held.tail others
      if text == "" then return rest
      else return (if isJoined member then parenthesized text else text) :: rest

end

/-- Write a condition tree: the expression over the blocks, and the blocks. -/
def writeCondition (naming : FieldNaming) (mapping : SourceMapping) (tree : Tree) :
    Except RenderError (String × List Block) := do
  let (expression, draft) ← (writeTree naming mapping (flatten tree)).run {}
  return (expression, draft.blocks)

end Detection.Sigma

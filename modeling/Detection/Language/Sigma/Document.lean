import Detection.Language.Sigma.Blocks
import Detection.Yaml.Printer

/-!
# Sigma rules as documents

A query is written as a rule document with the customary order of keys. Only the
first of its source mappings counts, because a rule has one log source. Entries
that are not known are left out, except for the log source and the level.
-/
namespace Detection.Sigma

open Yaml

mutual

def Item.node : Item → Node
  | .null => .scalar { text := "null", tag := "!!null" }
  | .number lexeme =>
    .scalar { text := lexeme, tag := if Value.isInteger lexeme then "!!int" else "!!float" }
  | .text content => .ofValue content
  | .list items => .ofItems (itemNodes items)

def itemNodes : List Item → List Node
  | [] => []
  | item :: others => item.node :: itemNodes others

end

def Item.settledNode (item : Item) : Except RenderError Node :=
  match settle? item.node with
  | some node => .ok node
  | none => .error .document

def entriesNode (entries : List Entry) : Except RenderError Node := do
  return .ofEntries (← entries.mapM fun entry => do
    return (.ofText entry.key, ← entry.value.settledNode))

def BlockContent.node : BlockContent → Except RenderError Node
  | .all entries => entriesNode entries
  | .any entries => do return .ofItems (← entries.mapM fun entry => entriesNode [entry])
  | .keywords items => (Item.list items).settledNode

/-- The place of a key in a log source. -/
def logSourceRank : String → Nat
  | "product" => 0
  | "category" => 1
  | "service" => 2
  | _ => 3

/-- Whether a key of a log source comes before another. -/
def logSourceBefore (first second : String) : Bool :=
  logSourceRank first < logSourceRank second ||
    logSourceRank first == logSourceRank second && decide (first ≤ second)

/-- The log source of a rule. What the query names wins over what the mapping is for. -/
def logSource (info : Meta) (signature : Signature) : List (String × String) :=
  let own := signature.sources.filterMap fun (key, values) => values.head?.map (key, ·)
  let named := ["product", "category", "service"].filterMap fun key =>
    ((info.logSources.lookup key).bind List.head?).map (key, ·)
  let all := named.foldl (fun table (key, value) => putEntry key value table) own
  all.mergeSort fun first second => logSourceBefore first.1 second.1

/-- An entry with a text, unless it is empty. -/
def textEntry (key content : String) : List (Node × Node) :=
  if content == "" then [] else [(.ofText key, .ofText content)]

/-- An entry with a list of texts, unless it is empty. -/
def listEntry (key : String) (items : List String) : List (Node × Node) :=
  if items.isEmpty then [] else [(.ofText key, .ofItems (items.map .ofText))]

def document (info : Meta) (signature : Signature) (expression : String) (blocks : List Block) :
    Except RenderError Node := do
  let sections ← blocks.mapM fun block => do
    return (Node.ofText block.name, ← block.content.node)
  return .ofEntries (
    textEntry "title" info.title ++
    textEntry "id" info.id ++
    textEntry "description" info.description ++
    textEntry "status" "experimental" ++
    textEntry "author" info.author ++
    textEntry "date" info.date ++
    listEntry "references" info.references ++
    listEntry "tags" info.tags ++
    [(.ofText "logsource", .ofEntries ((logSource info signature).map fun (key, value) =>
      (.ofText key, .ofText value))),
     (.ofText "detection", .ofEntries (sections ++ [(.ofText "condition", .ofText expression)])),
     (.ofText "level", .ofText info.severity)] ++
    listEntry "falsepositives" info.falsePositives)

/-- A text without the line break at its end. -/
def withoutFinalBreak (text : String) : String :=
  match text.toList.reverse with
  | '\n' :: rest => String.ofList rest.reverse
  | _ => text

def render (naming : FieldNaming) (query : Query) : Except RenderError (List Rendered) := do
  let info := query.info.getD .initial
  let mapping := (naming.repository.select info.mappingIds).headD naming.repository.default
  let (expression, blocks) ← writeCondition naming mapping query.tree
  match mapping.signature with
  | none => throw (.defect .missing)
  | some signature =>
    let root ← document info signature expression blocks
    return [{
      mapping := mapping.id
      query := withoutFinalBreak (print root) ++ annex query.pipeline.notSupported "#" "" }]

end Detection.Sigma

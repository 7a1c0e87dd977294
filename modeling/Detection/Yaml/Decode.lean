import Detection.Entry
import Detection.Text.Base64
import Detection.Yaml.Reader

/-!
# From YAML nodes to texts, lists and tables

A program that reads a document says which kind of value it expects where. A
value of another kind is passed over, so that the rest of the document is still
looked at, and makes the document as a whole unacceptable in the end; some
faults end the reading at once.
-/
namespace Detection.Yaml

/-- Why a document is not of the expected form. -/
inductive Fault
  | malformed
  | itemNotScalar (line : Nat)
  | neitherTextNorList (line : Nat)
  deriving DecidableEq, Repr

def Fault.message : Fault → String
  | malformed => "yaml: the document does not have the expected form"
  | itemNotScalar line => "line " ++ toString line ++ ": list items must be scalars"
  | neitherTextNorList line => "line " ++ toString line ++ ": expected string or list"

/-- A step of decoding. The state tells whether a value was passed over. -/
abbrev Decoding := StateT Bool (Except Fault)

/-- Pass over a value of the wrong kind. -/
def passOver {α : Type} : Decoding (Option α) := do
  set true
  return none

/-- The result of decoding, unless a value was passed over. -/
def Decoding.finish {α : Type} (decoding : Decoding α) : Except Fault α :=
  match decoding.run false with
  | .ok (result, false) => .ok result
  | .ok (_, true) => .error .malformed
  | .error fault => .error fault

/-- The text that a scalar stands for under its tag. Binary data is taken as the
encoding of a text. -/
def Scalar.meaning (content : Scalar) : Except Fault String :=
  if content.tag == "!!binary" then
    match Text.Base64.decode? content.text.toList with
    | some bytes => .ok (String.ofList (Text.charsOfBytes bytes))
    | none => .error .malformed
  else if tagAgrees content.tag content.text then .ok content.text
  else .error .malformed

namespace Node

/-- Whether a node is a null, written or not. -/
def isNull : Node → Bool
  | scalar content => content.tag == "!!null"
  | _ => false

/-- The text of a node without regard to its kind: a scalar's text, a reference's
name, and nothing for a collection. -/
def rawText : Node → String
  | scalar content => content.text
  | reference name _ _ => name
  | _ => ""

/-- The node without the references in front of it. A node that contains itself has
no meaning. -/
def resolved : Node → Except Fault Node
  | reference _ _ (some target) => resolved target
  | reference _ _ none => .error .malformed
  | node => .ok node

/-- A text. A null is passed over in silence. -/
def text? (node : Node) : Decoding (Option String) := do
  match ← liftM node.resolved with
  | scalar content =>
    let meaning ← liftM content.meaning
    return if content.tag == "!!null" then none else some meaning
  | _ => passOver

/-- A truth value. The words of older versions of the language count here. -/
def bool? (node : Node) : Decoding (Option Bool) := do
  match ← liftM node.resolved with
  | scalar content =>
    let meaning ← liftM content.meaning
    if content.tag == "!!null" then return none
    else if content.tag == "!!bool" then
      return some (content.text.toList.head?.any "tT".toList.contains)
    else if ["!!int", "!!float", "!!timestamp"].contains content.tag then passOver
    else if retiredTrueWords.contains meaning then return some true
    else if retiredFalseWords.contains meaning then return some false
    else passOver
  | _ => passOver

/-- A list of texts; nulls in it are dropped. -/
def texts? (node : Node) : Decoding (Option (List String)) := do
  match ← liftM node.resolved with
  | sequence _ _ items => return some ((← items.mapM text?).filterMap id)
  | other => if other.isNull then return some [] else passOver

/-- A text or a list of texts, taken as a list. Nothing in it is a reference. -/
def textOrTexts? (node : Node) : Decoding (Option (List String)) := do
  match ← liftM node.resolved with
  | scalar content => return some (if content.tag == "!!null" then [] else [content.text])
  | sequence _ _ items =>
    return some (← items.mapM fun
      | scalar content => pure content.text
      | other => throw (.itemNotScalar other.line))
  | other => throw (.neitherTextNorList other.line)

/-- Whether two keys of a table are the same. -/
def sameKey : Node → Node → Bool
  | scalar a, scalar b => a.text == b.text
  | reference a _ _, reference b _ _ => a == b
  | sequence .., sequence .. => true
  | mapping .., mapping .. => true
  | _, _ => false

/-- Whether no key of a table occurs twice. -/
def distinctKeys : List (Node × Node) → Bool
  | [] => true
  | (key, _) :: others => others.all (fun (other, _) => !sameKey key other) && distinctKeys others

/-- Whether a key asks for the entries of another table. -/
def isMergeKey : Node → Bool
  | scalar content =>
    content.text == "<<" && (content.tag == "!!merge" || content.tag == "")
  | _ => false

end Node

/-- The entries of one table followed by those of the others under new keys. -/
def addMissing {α : Type} (entries more : List (String × α)) : List (String × α) :=
  more.foldl (fun known (key, value) =>
    if (known.lookup key).isSome then known else known ++ [(key, value)]) entries

/-- The entries of a table by key. The tables that it merges fill in the keys it
lacks. The depth bounds how far one table merges another. -/
def tableEntries (depth : Nat) (node : Node) : Decoding (Option (List (String × Node))) :=
  match depth with
  | 0 => throw .malformed
  | depth + 1 => do
    match ← liftM node.resolved with
    | .mapping _ _ entries =>
      if !Node.distinctKeys entries then passOver
      else
        let own ← (entries.filter fun (key, _) => !key.isMergeKey).filterMapM
          fun (key, value) => do return (← key.text?).map (·, value)
        match entries.find? fun (key, _) => key.isMergeKey with
        | none => return some own
        | some (_, source) =>
          let sources ← match source with
            | .sequence _ _ items => pure items
            | other => pure [other]
          let merged ← sources.mapM fun item => do
            match ← liftM item.resolved with
            | .mapping .. => tableEntries depth item
            | _ => throw .malformed
          return some (merged.foldl (fun known more => addMissing known (more.getD [])) own)
    | other => if other.isNull then return some [] else passOver

/-- The entries of a table by key. Of several keys that are written differently and
mean the same, the last counts. -/
def Node.table? (node : Node) : Decoding (Option (List (String × Node))) := do
  let entries? ← tableEntries 1000 node
  return entries?.map (·.foldl (fun known (key, value) => putEntry key value known) [])

/-- The entries of a table under names that count. A name that is given twice makes
the table unacceptable. -/
def Node.fields (names : List String) (node : Node) : Decoding (List (String × Node)) := do
  let entries := ((← tableEntries 1000 node).getD []).filter fun (key, _) => names.contains key
  unless (entries.map Prod.fst).Nodup do set true
  return entries

/-- A table of texts. A null stands for the empty text. -/
def Node.textTable? (node : Node) : Decoding (Option (List (String × String))) := do
  match ← node.table? with
  | none => return none
  | some entries =>
    return some (← entries.filterMapM fun (key, value) => do
      if (← liftM value.resolved).isNull then return some (key, "")
      else return (← value.text?).map (key, ·))

/-- A table of lists of texts, each read by `items?`. -/
def Node.listTable? (items? : Node → Decoding (Option (List String))) (node : Node) :
    Decoding (Option (List (String × List String))) := do
  match ← node.table? with
  | none => return none
  | some entries =>
    return some (← entries.filterMapM fun (key, value) => do
      return (← items? value).map (key, ·))

/-- The entries of the document in a text under names that count; no document is an
empty table. -/
def document (names : List String) (text : String) : Decoding (List (String × Node)) := do
  match read? text with
  | none => throw .malformed
  | some none => return []
  | some (some root) => root.fields names

end Detection.Yaml

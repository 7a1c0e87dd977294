import Detection.Defect
import Detection.Text.Blank
import Detection.Text.LetterCase
import Detection.Text.Pieces

/-!
# Pipelines

A search may send the events that pass its filter through a pipeline of
functions. The stages are separated by bars outside quotes and parentheses. Six
functions are understood; every other stage is carried along as text.
-/
namespace Detection

open Text

/-- A function of a pipeline: its name in lower case, its arguments, the fields
it groups by, and its text. -/
structure PipeFunction where
  name : String
  args : List String := []
  groupBy : List String := []
  raw : String := ""
  deriving Repr, DecidableEq

/-- The stages of a pipeline that are understood and those that are not. -/
structure Pipeline where
  functions : List PipeFunction := []
  notSupported : List String := []
  deriving Repr, DecidableEq, Inhabited

namespace Pipeline

/-- What the bar splitter remembers of the text before a character. -/
structure Reading where
  quote : Option Char := none
  escaped : Bool := false
  depth : Nat := 0

/-- What the bar splitter remembers after one more character. Inside quotes a
backslash makes the next character part of the text. -/
def Reading.next (reading : Reading) (c : Char) : Reading :=
  match reading.quote with
  | some quote =>
    if reading.escaped then { reading with escaped := false }
    else if c == '\\' then { reading with escaped := true }
    else if c == quote then { reading with quote := none }
    else reading
  | none =>
    if c == '"' || c == '\'' then { reading with quote := some c }
    else if c == '(' then { reading with depth := reading.depth + 1 }
    else if c == ')' then { reading with depth := reading.depth - 1 }
    else reading

/-- Whether a bar at this place separates two stages. -/
def Reading.atTop (reading : Reading) : Bool :=
  reading.quote.isNone && reading.depth == 0

/-- The stages of a text. The accumulator holds the stage being read, last
character first. -/
def stagesFrom (reading : Reading) (current : List Char) : List Char → List (List Char)
  | [] => [trimChars current.reverse]
  | c :: rest =>
    if c == '|' && reading.atTop then
      trimChars current.reverse :: stagesFrom reading [] rest
    else stagesFrom (reading.next c) (c :: current) rest

/-- Split a search into its filter and the stages behind it. -/
def split (text : String) : String × List String :=
  match (stagesFrom {} [] text.toList).map String.ofList with
  | [] => ("", [])
  | filter :: stages => (filter, stages)

/-- The functions that are understood. -/
def knownFunctions : List String :=
  ["stats", "table", "fields", "head", "sort", "dedup"]

/-- The items of a list whose words are divided further by commas. -/
def listItems (words : List String) : List String :=
  (words.flatMap (splitAt ',')).map trim |>.filter (· != "")

def addStage (pipeline : Pipeline) (stage : String) : Except Defect Pipeline :=
  match words stage with
  | [] => .error .missing
  | first :: others =>
    if knownFunctions.contains (lower first) then
      let args := others.takeWhile fun word => !equalFold word "by"
      let function := {
        name := lower first
        args := listItems args
        groupBy := listItems (others.drop (args.length + 1))
        raw := stage }
      .ok { pipeline with functions := pipeline.functions ++ [function] }
    else .ok { pipeline with notSupported := pipeline.notSupported ++ [stage] }

/-- Read the stages of a pipeline. A stage that is not empty has to have a word. -/
def ofStages (stages : List String) : Except Defect Pipeline :=
  (stages.filter (· != "")).foldlM addStage {}

end Pipeline

end Detection

import Detection.Conversion

/-!
# The history of conversions

A table with one row for every query that was rendered, and one for every rule
that failed. An insertion may fail; then what is left of the same outcome is not
recorded, and nobody else notices.
-/
namespace Detection

/-- A row of the history. -/
structure HistoryRow where
  createdAt : String
  ruleId : String
  title : String
  source : String
  target : String
  mapping : String := ""
  query : String := ""
  error : String := ""
  deriving Repr, DecidableEq, Inhabited

def HistoryRow.ofOutcome (now : String) : Except RuleError Converted → List HistoryRow
  | .error error => [{
      createdAt := now, ruleId := error.ruleId, title := error.title, source := error.source
      target := error.target, error := error.fault.message }]
  | .ok result => result.outputs.map fun output => {
      createdAt := now, ruleId := result.ruleId, title := result.title, source := result.source
      target := result.target, mapping := output.mapping, query := output.query }

/-- An entry that is left out if it is empty. -/
def optionalText (key text : String) : List (String × Json) :=
  if text == "" then [] else [(key, .string text)]

def HistoryRow.json (number : Nat) (row : HistoryRow) : Json :=
  .object ([
    ("id", .number (toString number)),
    ("created_at", .string row.createdAt),
    ("rule_id", .string row.ruleId),
    ("title", .string row.title),
    ("source", .string row.source),
    ("target", .string row.target)] ++
    optionalText "source_mapping_id" row.mapping ++ optionalText "query" row.query ++
    optionalText "error" row.error)

/-- The table, with what the database does in reply. -/
structure HistoryStore where
  rows : List HistoryRow := []
  /-- How many insertions have been tried. -/
  tried : Nat := 0
  /-- Whether the insertion with a number succeeds. -/
  accepts : Nat → Bool := fun _ => true
  /-- Whether the rows can be read. -/
  readable : Bool := true
  /-- The message of every failure. -/
  failure : String := ""
  /-- The time that new rows get. -/
  now : String

namespace HistoryStore

/-- Insert rows until an insertion fails. -/
def insertAll (store : HistoryStore) : List HistoryRow → HistoryStore
  | [] => store
  | row :: others =>
    if store.accepts store.tried then
      insertAll { store with rows := store.rows ++ [row], tried := store.tried + 1 } others
    else { store with tried := store.tried + 1 }

def record (store : HistoryStore) (outcome : Except RuleError Converted) : HistoryStore :=
  store.insertAll (HistoryRow.ofOutcome store.now outcome)

/-- The newest rows with their numbers, newest first. -/
def recent (store : HistoryStore) (limit : Nat) : List (Nat × HistoryRow) :=
  ((store.rows.zipIdx 1).map fun (row, number) => (number, row)).reverse.take limit

end HistoryStore

end Detection

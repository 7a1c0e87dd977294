import Detection.FileTree

/-!
# Migrations

The tables of the service are set up by scripts, which are applied at every
start in the order of their names. Each script is one transaction: if one of its
statements fails, none of them has an effect, and no later script is applied.
-/
namespace Detection

open Text

/-- What a database does in reply to the service. -/
structure Database where
  /-- The statements that fail. -/
  refuses : String → Bool := fun _ => false
  /-- Whether no transaction can be begun. -/
  unavailable : Bool := false
  /-- The message of every failure. -/
  failure : String := ""

/-- What has happened at a database. -/
inductive DatabaseEvent
  | began
  | executed (statement : String)
  | committed
  | rolledBack
  deriving DecidableEq, Repr

/-- The statements of a script: what stands between semicolons and is not blank. -/
def statements (script : String) : List String :=
  ((splitAt ';' script).map trim).filter (· != "")

/-- Apply a script. The result is what happened, and whether it succeeded. -/
def Database.apply (database : Database) (script : String) : List DatabaseEvent × Bool :=
  if database.unavailable then ([], false)
  else
    let all := statements script
    let executed := all.takeWhile (!database.refuses ·)
    let succeeded := executed.length == all.length
    (.began :: executed.map .executed ++ [if succeeded then .committed else .rolledBack], succeeded)

/-- Why migrations fail. -/
inductive MigrationError
  | unreadable (error : PathError)
  | failed (name failure : String)
  /-- No directory could be used; the last error is kept. -/
  | noPath (last : String)
  deriving Repr

/-- The message for migrations that fail. -/
def MigrationError.message : MigrationError → String
  | unreadable error => error.message
  | failed name failure => "migration " ++ name ++ ": " ++ failure
  | noPath last => "init schema: no usable migrations path; last error: " ++ last

/-- The scripts among the entries of a directory, in the order of their names. -/
def scriptsOf (entries : List (String × FileTree)) : List (String × String) :=
  let scripts := entries.filterMap fun
    | (name, .file text) => if equalFold (extensionOf name) ".sql" then some (name, text) else none
    | (_, .directory _) => none
  scripts.mergeSort fun first second => decide (first.1 ≤ second.1)

/-- Apply scripts one after the other until one fails. -/
def Database.applyAll (database : Database) :
    List (String × String) → List DatabaseEvent × Option MigrationError
  | [] => ([], none)
  | (name, script) :: others =>
    let (events, succeeded) := database.apply script
    if succeeded then
      let (more, error) := database.applyAll others
      (events ++ more, error)
    else (events, some (.failed name database.failure))

def Database.migrate (database : Database) (disk : Disk) (directory : String) :
    List DatabaseEvent × Option MigrationError :=
  match disk directory with
  | .ok (.directory entries) => database.applyAll (scriptsOf entries)
  | .ok (.file _) => ([], some (.unreadable ⟨"open", directory, .notDirectory⟩))
  | .error fault => ([], some (.unreadable ⟨"open", directory, fault⟩))

/-- Apply the scripts of the first of some directories for which that succeeds. -/
def Database.migrateFirst (database : Database) (disk : Disk) (last : String) :
    List String → List DatabaseEvent × Option MigrationError
  | [] => ([], some (.noPath last))
  | directory :: others =>
    match disk directory with
    | .error fault =>
      database.migrateFirst disk (PathError.message ⟨"stat", directory, fault⟩) others
    | .ok _ =>
      match database.migrate disk directory with
      | (events, none) => (events, none)
      | (events, some error) =>
        let (more, result) := database.migrateFirst disk error.message others
        (events ++ more, result)

/-- The directories that are tried after the one that was asked for. -/
def commonMigrationPaths : List String := ["./migrations", "/srv/migrations"]

def Database.setUp (database : Database) (disk : Disk) (path : String) :
    List DatabaseEvent × Option MigrationError :=
  database.migrateFirst disk "" ((if path == "" then [] else [path]) ++ commonMigrationPaths)

end Detection

import Detection.Service.EnvFile
import Detection.Text.Integer

/-!
# Settings of the service

Settings come from the environment. Files may add to it, but a variable that is
set already keeps its value.
-/
namespace Detection

open Text

/-- The settings of the service. -/
structure Settings where
  address : String := ":8080"
  /-- The database of the history, empty if there is none. -/
  database : String := ""
  /-- The directory of the mappings, empty if the shipped ones are used. -/
  mappings : String := ""
  logLevel : String := "info"
  concurrency : Int := 4
  strict : Bool := false
  migrations : String := "./migrations"
  deriving Repr

/-- Why the settings cannot be loaded. -/
inductive SettingsError
  | file (path : String) (fault : EnvFile.Fault)
  | malformed (field name cause : String)
  | level (text : String)
  | concurrency (number : Int)
  deriving Repr

/-- The message for settings that cannot be loaded. -/
def SettingsError.message : SettingsError → String
  | file path fault => "load " ++ path ++ ": " ++ fault.message
  | malformed field name cause =>
    "read env: parsing field " ++ field ++ " env " ++ name ++ ": " ++ cause
  | level text => "TRANSLATOR_LOG_LEVEL: unrecognized level: " ++ quote text
  | concurrency number =>
    "TRANSLATOR_BATCH_CONCURRENCY must be positive, got " ++ toString number

/-- The variables of an environment. -/
abbrev Environment := List (String × String)

def Environment.addMissing (environment : Environment) (more : List (String × String)) :
    Environment :=
  environment ++ more.filter fun (name, _) => (environment.lookup name).isNone

/-- Add the variables of files. A file that is missing is skipped. -/
def Environment.addFiles (environment : Environment) :
    List (String × Option String) → Except SettingsError Environment
  | [] => .ok environment
  | (_, none) :: others => environment.addFiles others
  | (path, some text) :: others => do
    let declared ← (EnvFile.read text).mapError (.file path)
    (environment.addMissing declared).addFiles others

def logLevels : List String := ["", "debug", "info", "warn", "error", "dpanic", "panic", "fatal"]

/-- The number of rules that are converted at once. -/
def readConcurrency (standard : Int) : Option String → Except SettingsError Int
  | none => .ok standard
  | some given =>
    match readInteger given with
    | .ok number => .ok number
    | .error fault =>
      .error (.malformed "BatchConcurrency" "TRANSLATOR_BATCH_CONCURRENCY"
        (integerMessage given fault))

/-- Whether every field has to be mapped. -/
def readStrictness (standard : Bool) : Option String → Except SettingsError Bool
  | none => .ok standard
  | some given =>
    match readSwitch? given with
    | some strict => .ok strict
    | none =>
      .error (.malformed "StrictMapping" "TRANSLATOR_STRICT_MAPPING" (switchMessage given))

/-- Read the settings from an environment. -/
def Settings.ofEnvironment (environment : Environment) : Except SettingsError Settings := do
  let standard : Settings := {}
  let text (name default : String) : String := (environment.lookup name).getD default
  let concurrency ←
    readConcurrency standard.concurrency (environment.lookup "TRANSLATOR_BATCH_CONCURRENCY")
  let strict ← readStrictness standard.strict (environment.lookup "TRANSLATOR_STRICT_MAPPING")
  let settings := { standard with
    address := text "TRANSLATOR_ADDR" standard.address
    database := text "TRANSLATOR_DB_DSN" standard.database
    mappings := text "TRANSLATOR_MAPPINGS_PATH" standard.mappings
    logLevel := text "TRANSLATOR_LOG_LEVEL" standard.logLevel
    migrations := text "MIGRATIONS_PATH" standard.migrations
    concurrency
    strict }
  if !logLevels.contains (lower settings.logLevel) then throw (.level settings.logLevel)
  if settings.concurrency ≤ 0 then throw (.concurrency settings.concurrency)
  return settings

/-- Load the settings from an environment and some files. -/
def Settings.load (environment : Environment) (files : List (String × Option String)) :
    Except SettingsError Settings := do
  Settings.ofEnvironment (← environment.addFiles files)

end Detection

import Detection.Catalogue.Shipped
import Detection.CommandLine.Flag
import Detection.FileTree
import Detection.Service

/-!
# The command line

A rule is converted from a file or from the input, or all rules under a directory
are. Two more commands list the platforms and search for indicators.
-/
namespace Detection.CommandLine

open Text

def program : String := "sigmaconv"

/-- The commands. The one without a name converts rules. -/
inductive Command
  | convert
  | platforms
  | indicators
  | help
  | completion
  deriving DecidableEq, Repr

namespace Command

/-- The commands that have a name, in its order. -/
def named : List Command := [completion, help, indicators, platforms]

def name : Command → String
  | convert => program
  | platforms => "platforms"
  | indicators => "iocs"
  | help => "help"
  | completion => "completion"

def summary : Command → String
  | convert => "Translate detection rules between SIEM query languages"
  | platforms => "List source and target languages"
  | indicators => "Build hunting queries from the indicators found in a report"
  | help => "Help about any command"
  | completion => "Generate the autocompletion script for the specified shell"

def description : Command → String
  | convert => "Translates one rule (from a file or stdin) or every rule under --dir " ++
      "from the --from language into the --to language."
  | platforms => platforms.summary
  | indicators => "Extracts IPs, domains, URLs, e-mails and file hashes from a text file " ++
      "(or stdin) and renders them for an indicator target."
  | help => "Help provides help for any command in the application.\nSimply type " ++ program ++
      " help [path to command] for full details."
  | completion => "Generate the autocompletion script for " ++ program ++
      " for the specified shell.\n" ++
      "See each sub-command's help for details on how to use the generated script."

def synopsis : Command → String
  | convert => program ++ " [file]"
  | platforms => program ++ " platforms"
  | indicators => program ++ " iocs [file]"
  | help => program ++ " help [command]"
  | completion => program ++ " completion"

def helpFlag (command : Command) : Flag :=
  { name := "help", kind := .switch, usage := "help for " ++ command.name, short := some 'h' }

def commonFlags : List Flag := [
  { name := "json", kind := .switch, usage := "Print results as JSON" },
  { name := "verbose", kind := .switch, usage := "Log debug output to stderr", short := some 'v' },
  { name := "mappings", kind := .text, usage := "Mapping directory (default: built-in mappings)" }]

/-- The flags of a command alone, without the one for help. -/
def ownFlags : Command → List Flag
  | convert => [
      { name := "from", kind := .text, usage := "Source language", default := "sigma" },
      { name := "to", kind := .text, usage := "Target language" },
      { name := "dir", kind := .text, usage := "Translate every rule file under this directory" },
      { name := "strict", kind := .switch,
        usage := "Fail on fields missing from the target mapping" },
      { name := "concurrency", kind := .number,
        usage := "Rules translated in parallel with --dir", default := "4" }]
  | indicators => [
      { name := "to", kind := .text, usage := "Indicator target" },
      { name := "per-query", kind := .number,
        usage := "Indicators per query (0: all in one)", default := "25" }]
  | _ => []

def flags (command : Command) : List Flag :=
  command.helpFlag :: command.ownFlags ++ commonFlags

/-- The commands below a command, with their lines. -/
def below : Command → List (String × String)
  | convert => named.map fun command => (command.name, command.summary)
  | completion => ["bash", "fish", "powershell", "zsh"].map fun shell =>
      (shell, "Generate the autocompletion script for " ++ shell)
  | _ => []

/-- A name with blanks up to a common width. -/
def padded (name : String) : String :=
  name ++ String.ofList (List.replicate (11 - name.length) ' ')

/-- The lines of the help on a command. -/
def helpLines (command : Command) : List String :=
  let own := command.helpFlag :: command.ownFlags
  let path := if command = .convert then program else program ++ " " ++ command.name
  [command.description, "", "Usage:"] ++
    (if command = .completion then [] else ["  " ++ command.synopsis ++ " [flags]"]) ++
    (if command.below.isEmpty then []
      else ["  " ++ path ++ " [command]", "", "Available Commands:"] ++
        command.below.map fun (name, line) => "  " ++ padded name ++ " " ++ line) ++
    ["", "Flags:"] ++
    (if command = .convert then flagLines (own ++ commonFlags)
      else flagLines own ++ ["", "Global Flags:"] ++ flagLines commonFlags) ++
    (if command.below.isEmpty then []
      else ["", "Use \"" ++ path ++ " [command] --help\" for more information about a command."])

def helpText (command : Command) : String :=
  String.join (command.helpLines.map (· ++ "\n"))

/-- The command that some arguments call, and the other arguments. -/
def find (arguments : List String) : Command × List String :=
  match firstWord? (convert.ownFlags ++ commonFlags) arguments with
  | some (word, others) =>
    match named.find? (·.name == word) with
    | some command => (command, others)
    | none => (convert, arguments)
  | none => (convert, arguments)

end Command

/-- Why a command fails. -/
inductive CommandError
  | flag (error : FlagError)
  | tooManyArguments (number : Nat)
  | unexpectedArgument (argument : String) (command : Command)
  | targetMissing
  | registry (error : RegistryError)
  | path (error : PathError)
  | rules (error : PathError)
  | rule (error : RuleError)
  | indicators (error : IndicatorError)
  | someFailed

/-- The message for a command that fails. -/
def CommandError.message : CommandError → String
  | flag error => error.message
  | tooManyArguments number => "accepts at most 1 arg(s), received " ++ toString number
  | unexpectedArgument argument command =>
    "unknown command " ++ quote argument ++ " for " ++ quote (program ++ " " ++ command.name)
  | targetMissing => "required flag(s) \"to\" not set"
  | registry error => error.message
  | path error => error.message
  | rules error => "load rules: " ++ error.message
  | rule error => error.message
  | indicators error => error.message
  | someFailed => "some rules failed to translate"

/-- What a command prints, and why it fails if it does. -/
structure Outcome where
  output : String := ""
  error : Option CommandError := none

def Outcome.failed (error : CommandError) : Outcome := { error := some error }

def format : Json.Format := ⟨2, true⟩

def convertedJson (result : Converted) : Json :=
  .object [
    ("rule_id", .string result.ruleId),
    ("title", .string result.title),
    ("source", .string result.source),
    ("target", .string result.target),
    ("results", .array (result.outputs.map Rendered.json))]

/-- A converted rule as it is printed. Several queries are told apart by their
mappings. -/
def convertedText (result : Converted) (asJson : Bool) : String :=
  if asJson then (convertedJson result).print format ++ "\n"
  else String.join (result.outputs.map fun output =>
    (if result.outputs.length > 1 then "# source mapping: " ++ output.mapping ++ "\n" else "") ++
      output.query ++ "\n")

/-- The text in the file that the arguments name, or else the input. -/
def inputText (disk : Disk) (input : String) (arguments : Arguments) : Except PathError String :=
  match arguments.positional with
  | path :: _ => disk.readFile path
  | [] => .ok input

def convertText (registry : Registry) (arguments : Arguments) (text : String) : Outcome :=
  let request : ConversionRequest :=
    { query := text, source := arguments.text "from" "sigma", target := arguments.text "to" "" }
  match request.run registry (arguments.isOn "strict") with
  | .ok result => { output := convertedText result (arguments.isOn "json") }
  | .error error => .failed (.rule error)

def fileReport (asJson : Bool) (file : RuleFile) : Except RuleError Converted → String
  | .ok result => "# " ++ file.path ++ "\n" ++ convertedText result asJson
  | .error error => "# " ++ file.path ++ ": error: " ++ error.fault.message ++ "\n"

def convertFiles (registry : Registry) (arguments : Arguments) (files : List RuleFile) : Outcome :=
  let outcomes := files.map fun file =>
    let request : ConversionRequest :=
      { query := file.text, source := arguments.text "from" "sigma",
        target := arguments.text "to" "" }
    request.run registry (arguments.isOn "strict")
  let failed := outcomes.countP Service.isFailure
  { output :=
      String.join ((files.zip outcomes).map fun (file, outcome) =>
        fileReport (arguments.isOn "json") file outcome) ++
      "# translated=" ++ toString (files.length - failed) ++ " failed=" ++ toString failed ++ "\n"
    error := if failed > 0 then some .someFailed else none }

/-- Convert one rule or all under a directory. -/
def runConvert (registry : Registry) (disk : Disk) (input : String) (arguments : Arguments) :
    Outcome :=
  let directory := arguments.text "dir" ""
  if directory == "" then
    match inputText disk input arguments with
    | .ok text => convertText registry arguments text
    | .error error => .failed (.path error)
  else
    match disk.ruleFiles directory (ruleEndings (arguments.text "from" "sigma")) with
    | .ok files => convertFiles registry arguments files
    | .error error => .failed (.rules error)

/-- Search for the indicators in a text. -/
def runIndicators (registry : Registry) (disk : Disk) (input : String) (arguments : Arguments) :
    Outcome :=
  match inputText disk input arguments with
  | .error error => .failed (.path error)
  | .ok text =>
    match searchIndicators registry text (arguments.text "to" "") (arguments.number "per-query" 25)
        false with
    | .error error => .failed (.indicators error)
    | .ok report =>
      { output :=
          if arguments.isOn "json" then report.json.print format ++ "\n"
          else String.join (report.queries.map (· ++ "\n")) }

def bracketed (names : List String) : String := "[" ++ join " " names ++ "]"

def runPlatforms (registry : Registry) : Outcome :=
  { output :=
      "sources: " ++ bracketed (SourceLanguage.all.map (·.name)) ++
      "\ntargets: " ++ bracketed (TargetLanguage.all.map (·.name)) ++
      "\nindicator targets: " ++ bracketed (registry.indicators.map (·.form.platform)) ++ "\n" }

/-- Check the arguments of a command before it runs. -/
def checkArguments (command : Command) (arguments : Arguments) : Except CommandError Unit := do
  if command = .platforms then
    if let argument :: _ := arguments.positional then
      throw (.unexpectedArgument argument command)
  else
    if arguments.positional.length > 1 then
      throw (.tooManyArguments arguments.positional.length)
    if !arguments.has "to" then throw .targetMissing

/-- Run a command that needs the platforms. -/
def runCommand (command : Command) (arguments : Arguments) (disk : Disk) (input : String) :
    Outcome :=
  match checkArguments command arguments with
  | .error error => .failed error
  | .ok () =>
    let mappings := arguments.text "mappings" ""
    match Registry.load (if mappings == "" then Shipped.catalogue else .onDisk disk mappings) with
    | .error error => .failed (.registry error)
    | .ok registry =>
      match command with
      | .platforms => runPlatforms registry
      | .indicators => runIndicators registry disk input arguments
      | _ => runConvert registry disk input arguments

def run (arguments : List String) (disk : Disk) (input : String) : Outcome :=
  let (command, rest) := Command.find arguments
  match readArguments command.flags {} rest with
  | .error error => .failed (.flag error)
  | .ok read =>
    if read.isOn "help" || command = .completion then { output := command.helpText }
    else if command = .help then { output := (Command.find read.positional).1.helpText }
    else runCommand command read disk input

/-- The paths that the program may read. -/
def paths (arguments : List String) : List String :=
  let (command, rest) := Command.find arguments
  match readArguments command.flags {} rest with
  | .error _ => []
  | .ok read => ([read.text "mappings" "", read.text "dir" ""] ++ read.positional).filter (· != "")

/-- Whether the program may read its input. -/
def readsInput (arguments : List String) : Bool :=
  let (command, rest) := Command.find arguments
  match readArguments command.flags {} rest with
  | .error _ => false
  | .ok read => (command = .convert && read.text "dir" "" == "" || command = .indicators) &&
      read.positional.isEmpty && !read.isOn "help"

end Detection.CommandLine

import Detection.Text.Integer
import Detection.Text.Pieces

/-!
# Flags

The flags of a command. A flag with a value takes it behind an equality sign or
from the next argument; a switch takes one behind an equality sign only. Two
dashes alone end the flags. What is no flag is a positional argument.
-/
namespace Detection.CommandLine

open Text

/-- What a flag takes. -/
inductive FlagKind
  | text
  | number
  | switch
  deriving DecidableEq, Repr

/-- A flag. Only switches have a short form. -/
structure Flag where
  name : String
  kind : FlagKind
  usage : String
  short : Option Char := none
  /-- The value that is shown as the default, empty if none is. -/
  default : String := ""
  deriving Repr

/-- The value of a flag. -/
inductive FlagValue
  | text (text : String)
  | number (number : Int)
  | switch (isOn : Bool)
  deriving DecidableEq, Repr

/-- Why flags cannot be read. -/
inductive FlagError
  | badForm (argument : String)
  | unknown (name : String)
  | unknownShort (letter : Char) (letters : String)
  | valueMissing (name : String)
  | badValue (flag : Flag) (value cause : String)

def Flag.title (flag : Flag) : String :=
  match flag.short with
  | some letter => "-" ++ String.singleton letter ++ ", --" ++ flag.name
  | none => "--" ++ flag.name

/-- The message for flags that cannot be read. -/
def FlagError.message : FlagError → String
  | badForm argument => "bad flag syntax: " ++ argument
  | unknown name => "unknown flag: --" ++ name
  | unknownShort letter letters =>
    "unknown shorthand flag: '" ++ String.singleton letter ++ "' in -" ++ letters
  | valueMissing name => "flag needs an argument: --" ++ name
  | badValue flag value cause =>
    "invalid argument " ++ quote value ++ " for " ++ quote flag.title ++ " flag: " ++ cause

def Flag.read (flag : Flag) (value : String) : Except FlagError FlagValue :=
  match flag.kind with
  | .text => .ok (.text value)
  | .number =>
    match readInteger value with
    | .ok number => .ok (.number number)
    | .error fault => .error (.badValue flag value (integerMessage value fault))
  | .switch =>
    match readSwitch? value with
    | some isOn => .ok (.switch isOn)
    | none => .error (.badValue flag value (switchMessage value))

/-- The flags that have been read, the last value of each first, and the positional
arguments. -/
structure Arguments where
  values : List (String × FlagValue) := []
  positional : List String := []
  deriving Repr

namespace Arguments

def add (arguments : Arguments) (flag : Flag) (value : FlagValue) : Arguments :=
  { arguments with values := (flag.name, value) :: arguments.values }

def text (arguments : Arguments) (name default : String) : String :=
  match arguments.values.lookup name with
  | some (.text value) => value
  | _ => default

def number (arguments : Arguments) (name : String) (default : Int) : Int :=
  match arguments.values.lookup name with
  | some (.number value) => value
  | _ => default

def isOn (arguments : Arguments) (name : String) : Bool :=
  match arguments.values.lookup name with
  | some (.switch value) => value
  | _ => false

def has (arguments : Arguments) (name : String) : Bool :=
  (arguments.values.lookup name).isSome

end Arguments

/-- Read the short forms behind a dash. -/
def readShort (flags : List Flag) (arguments : Arguments) (letters : List Char) :
    Except FlagError Arguments :=
  match letters with
  | [] => .ok arguments
  | letter :: rest =>
    match flags.find? (·.short == some letter) with
    | none => .error (.unknownShort letter (String.ofList letters))
    | some flag =>
      match rest with
      | '=' :: c :: value => do
        return arguments.add flag (← flag.read (String.ofList (c :: value)))
      | _ => do
        let value ← flag.read "true"
        readShort flags (arguments.add flag value) rest

/-- The parts of a long flag: its name and its value, if that stands behind a sign. -/
def longParts (body : List Char) : String × Option String :=
  match cutAt? (· == '=') body with
  | some (name, value) => (String.ofList name, some (String.ofList value))
  | none => (String.ofList body, none)

/-- The value of a flag that is given without one. -/
def Flag.impliedValue? (flag : Flag) : Option String :=
  if flag.kind = .switch then some "true" else none

def readArguments (flags : List Flag) (arguments : Arguments) :
    List String → Except FlagError Arguments
  | [] => .ok arguments
  | argument :: rest =>
    match argument.toList with
    | ['-', '-'] => .ok { arguments with positional := arguments.positional ++ rest }
    | '-' :: '-' :: body =>
      if body.head? == some '-' || body.head? == some '=' then .error (.badForm argument)
      else
        let (name, value?) := longParts body
        match flags.find? (·.name == name) with
        | none => .error (.unknown name)
        | some flag =>
          match value? <|> flag.impliedValue? with
          | some value => do
            let value ← flag.read value
            readArguments flags (arguments.add flag value) rest
          | none =>
            match rest with
            | next :: others => do
              let value ← flag.read next
              readArguments flags (arguments.add flag value) others
            | [] => .error (.valueMissing name)
    | '-' :: letter :: letters => do
      let read ← readShort flags arguments (letter :: letters)
      readArguments flags read rest
    | _ =>
      readArguments flags { arguments with positional := arguments.positional ++ [argument] } rest

/-- Whether the argument behind one that looks like a flag is its value. -/
def takesNext (flags : List Flag) (argument : String) : Bool :=
  match argument.toList with
  | '-' :: '-' :: name =>
    !name.contains '=' &&
      !flags.any fun flag => flag.name == String.ofList name && flag.kind = .switch
  | ['-', letter] => letter != '=' && !flags.any (·.short == some letter)
  | _ => false

/-- The first argument that is neither a flag nor the value of one, with the other
arguments. -/
def firstWord? (flags : List Flag) : List String → Option (String × List String)
  | [] => none
  | argument :: rest =>
    if argument == "--" then none
    else if takesNext flags argument then
      match rest with
      | value :: next :: others =>
        (firstWord? flags (next :: others)).map fun (word, left) =>
          (word, argument :: value :: left)
      | _ => none
    else if argument == "" || argument.toList.head? == some '-' then
      (firstWord? flags rest).map fun (word, left) => (word, argument :: left)
    else some (argument, rest)

/-! ## Help -/

/-- What a flag looks like before its usage. -/
def Flag.synopsis (flag : Flag) : String :=
  (match flag.short with
    | some letter => "  -" ++ String.singleton letter ++ ", --" ++ flag.name
    | none => "      --" ++ flag.name) ++
  match flag.kind with
  | .text => " string"
  | .number => " int"
  | .switch => ""

/-- The usage of a flag with its default. -/
def Flag.explanation (flag : Flag) : String :=
  flag.usage ++
    if flag.default == "" then ""
    else " (default " ++ (if flag.kind = .text then quote flag.default else flag.default) ++ ")"

/-- The lines that explain some flags, in the order of their names. -/
def flagLines (flags : List Flag) : List String :=
  let sorted := flags.mergeSort fun first second => decide (first.name ≤ second.name)
  let width := (sorted.map (·.synopsis.length)).foldl max 0
  sorted.map fun flag =>
    flag.synopsis ++ String.ofList (List.replicate (width - flag.synopsis.length + 3) ' ') ++
      flag.explanation

end Detection.CommandLine

import Detection.Lexer
import Detection.LogSource
import Detection.Render.Query

/-!
# Reading queries

What the readers of all languages share. The tokens of a query are resolved
against the mappings of its platform, every field gets its generic names, and
the tokens are compiled into a tree. A reader that knows the rule's metadata by
the time it fails reports it with the error.
-/
namespace Detection

/-- Why the detection block of a rule cannot be read. -/
inductive DetectionFault
  | noDetection
  | noCondition
  | badCondition
  | conditionKind
  | badModifier (selection : String) (item : Option Nat) (modifier field : String)
  | badExistence (selection : String) (item : Option Nat) (field : String)
  | itemKind (selection : String) (item : Nat)
  | selectionKind (selection : String)
  | emptyCondition
  | unbalanced (condition : String) (mark : Char)
  | unknownSelection (condition name : String)
  | quantifier (condition number target : String)
  | noMatch (condition target : String)
  | notAlone (condition : String)
  | operandsMissing (condition word : String)
  | dangling (condition : String)
  deriving DecidableEq, Repr

open Text in
/-- The message for a detection block that cannot be read. -/
def DetectionFault.message : DetectionFault → String
  | noDetection => "missing detection block"
  | noCondition => "missing detection condition"
  | badCondition => "condition: yaml: an item is no text"
  | conditionKind => "condition must be a string or a list of strings"
  | badModifier selection item modifier field =>
    within selection item ++ "unsupported modifier " ++ quote modifier ++ " on field " ++ field
  | badExistence selection item field =>
    within selection item ++ "field " ++ field ++ ": exists expects a boolean"
  | itemKind selection item =>
    "selection " ++ selection ++ ": item " ++ toString item ++ " must be a mapping or a scalar"
  | selectionKind selection =>
    "selection " ++ selection ++ ": selection must be a mapping or a list"
  | emptyCondition => "empty condition"
  | unbalanced condition mark => about condition ++ "unbalanced " ++ String.singleton mark
  | unknownSelection condition name => about condition ++ "unknown selection " ++ name
  | quantifier condition number target =>
    about condition ++ number ++ " of " ++ target ++ " is not supported"
  | noMatch condition target => about condition ++ "no selection matches " ++ target
  | notAlone condition => about condition ++ "not without operand"
  | operandsMissing condition word => about condition ++ word ++ " without operands"
  | dangling condition => about condition ++ "dangling operands"
where
  /-- The beginning of a message about a selection. -/
  within (selection : String) (item : Option Nat) : String :=
    "selection " ++ selection ++ ": " ++
      (item.map fun index => "item " ++ toString index ++ ": ").getD ""
  /-- The beginning of a message about a condition. -/
  about (condition : String) : String :=
    "condition " ++ quote condition ++ ": "

/-- Why a query cannot be read. -/
inductive ReadFault
  | lex (error : LexError)
  | compile (error : CompileError)
  | detection (fault : DetectionFault)
  /-- The document around a rule is no YAML of the expected form. -/
  | ruleDocument
  /-- The document around an alert is no JSON of the expected form. -/
  | alertDocument
  /-- An alert has no query. -/
  | alertQuery
  | defect (cause : Defect)

/-- A fault, with the metadata of the rule if that is known. -/
structure ReadError where
  fault : ReadFault
  info : Option Meta := none

def ReadFault.message : ReadFault → String
  | lex error => error.message
  | compile error => "compile: " ++ error.message
  | detection fault => fault.message
  | ruleDocument => "sigma yaml: yaml: the rule does not have the expected form"
  | alertDocument => "logscale alert: json: the alert does not have the expected form"
  | alertQuery => "logscale alert: missing query.queryString"
  | defect cause => cause.message?.getD ""

/-- The query that a list of tokens is, under the mappings of its platform. -/
def Query.ofTokens (repository : Repository) (tokens : List Token) (hints : Hints) (info : Meta)
    (pipeline : Pipeline) : Except ReadError Query := do
  let fields := Token.fieldNames tokens
  let resolved ← (repository.resolve fields hints).mapError fun cause => ⟨.defect cause, none⟩
  let tokens := tokens.map (Token.withMappings (resolved ++ [repository.default]))
  let tree ← (compile tokens).mapError fun error => ⟨.compile error, some info⟩
  return {
    tokens
    tree
    info := some { info with
      queryFields := fields
      mappingIds := resolved.map (·.id)
      logSources := if hints.isEmpty then info.logSources else hints }
    pipeline }

/-- The tokens of a text in a dialect. -/
def Dialect.read (dialect : Dialect) (text : String) : Except ReadError (List Token) :=
  (dialect.tokenize text).mapError fun error => ⟨.lex error, none⟩

end Detection

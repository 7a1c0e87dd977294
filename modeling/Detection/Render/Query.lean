import Detection.Catalogue.Repository
import Detection.Pipeline
import Detection.Render.Clauses
import Detection.Render.Layout
import Detection.Render.Literal
import Detection.Tree

/-!
# Rendering queries

A query that has been read is rendered once for each of its source mappings. The
condition becomes a text in which every field has its name on the platform; it
is laid out with the display form of the mapping and the functions, and what
could not be expressed follows in a comment.
-/
namespace Detection

open Text

/-- A query that has been read. -/
structure Query where
  tokens : List Token := []
  tree : Tree
  info : Option Meta
  pipeline : Pipeline := {}
  deriving Repr, Inhabited

/-- A rendered query and the mapping it is for. -/
structure Rendered where
  mapping : String
  query : String
  deriving Repr, DecidableEq, Inhabited

def SourceMapping.display (mapping : SourceMapping) : String :=
  (mapping.signature.map Signature.display).getD ""

/-- How fields get their names on a platform. -/
structure FieldNaming where
  platform : String
  repository : Repository
  /-- Whether every field has to be mapped. -/
  strict : Bool

/-- How a platform renders queries. -/
structure QueryForm extends FieldNaming where
  clauses : Clauses
  words : Words := ⟨"OR", "AND"⟩
  notWord : String := "NOT"
  layout : String := defaultLayout
  /-- The field in which the values of fields that are not mapped are searched,
  empty if they are not. -/
  rawField : String := ""
  commentOpening : String
  commentClosing : String := ""
  /-- What stands before the condition. -/
  lead : SourceMapping → Meta → String := fun mapping _ => mapping.display
  /-- The text of the functions; without it they are not supported. -/
  functions? : Option (List PipeFunction → String) := none
  /-- The document around a query. -/
  envelope : String → SourceMapping → Meta → String := fun query _ _ => query

/-- The generic name of a field under a mapping, or else under the default one, or
else its own name. -/
def Field.genericFor (field : Field) (mapping : String) : String :=
  let own := field.genericName mapping
  let default := field.genericName Meta.defaultMapping
  if own != "" then own else if default != "" then default else field.name

/-- The names of a field on the platform. A field without any keeps its generic
name, unless it has to be mapped. -/
def FieldNaming.names (naming : FieldNaming) (mapping : SourceMapping) (field : Field) :
    Except RenderError (List String) :=
  let generic := field.genericFor mapping.id
  let own := mapping.fields.platformNames generic
  let default := naming.repository.default.fields.platformNames generic
  if !own.isEmpty then .ok own
  else if naming.strict then .error (.strictMapping naming.platform field.name mapping.id none)
  else .ok (if default.isEmpty then [generic] else default)

namespace QueryForm

mutual

/-- A value of a regular expression as one with wildcards. -/
def asPattern : Value → Except Defect Value
  | .list items => do return .list (← asPatterns items)
  | .number lexeme => .ok (.number lexeme)
  | value => do return .pattern (← value.content) true

/-- Values of a regular expression as ones with wildcards. -/
def asPatterns : List Value → Except Defect (List Value)
  | [] => .ok []
  | item :: others => do
    let first ← asPattern item
    return first :: (← asPatterns others)

end

/-- Search the value of a comparison in the raw message, in place of a field that
is not mapped. -/
def rawClause (form : QueryForm) (mapping : SourceMapping) (field : Field) (operator : Operator)
    (value : Value) : Except RenderError String := do
  let searched ←
    if operator = .regex || operator = .notRegex then Except.orDefect (asPattern value)
    else pure value
  match form.clauses.comparison form.words form.rawField
      (if operator.negated then .notContains else .contains) searched with
  | .ok text => return text
  | .error (.regex _ _ text _) => throw (.regex form.platform field.name text true)
  | .error (.defect defect) => throw (.defect defect)
  | .error failure =>
    throw (.strictMapping form.platform field.name mapping.id (some failure.message))

/-- Write a leaf. A field with several names on the platform is compared under
each of them. -/
def leaf (form : QueryForm) (mapping : SourceMapping) : Leaf → Except RenderError String
  | .keyword operator value _ => form.clauses.comparison form.words "" operator value
  | .comparison field operator value _ =>
    match form.names mapping field with
    | .error failure =>
      if form.rawField == "" then .error failure
      else form.rawClause mapping field operator value
    | .ok [name] => form.clauses.comparison form.words name operator value
    | .ok names => do
      let parts ← names.mapM fun name => form.clauses.comparison form.words name operator value
      return "(" ++ join (" " ++ form.words.or ++ " ") parts ++ ")"

/-- Whether a tree is a group with several members. -/
def isCompound : Tree → Bool
  | .leaf _ => false
  | .group _ members => members.length > 1

/-- Whether a member of a group that is joined by a connective is put between
parentheses. -/
def needsParentheses (kind : GroupKind) : Tree → Bool
  | .leaf _ => false
  | .group .not _ => false
  | .group inner members => inner ≠ kind && members.length > 1

mutual

def condition (form : QueryForm) (mapping : SourceMapping) : Tree → Except RenderError String
  | .leaf content => form.leaf mapping content
  | .group .single [] => .ok ""
  | .group .single (member :: _) => form.condition mapping member
  | .group .not [] => .error (.defect .missing)
  | .group .not (member :: _) => do
    let inner ← form.condition mapping member
    return form.notWord ++ " " ++ (if isCompound member then "(" ++ inner ++ ")" else inner)
  | .group kind members => do
    let parts ← form.conditions mapping kind members
    return join (" " ++ (if kind = .or then form.words.or else form.words.and) ++ " ") parts

/-- Write the members of a group that is joined by a connective. Those without
any text are left out. -/
def conditions (form : QueryForm) (mapping : SourceMapping) (kind : GroupKind) :
    List Tree → Except RenderError (List String)
  | [] => .ok []
  | member :: others => do
    let text ← form.condition mapping member
    let rest ← form.conditions mapping kind others
    if text == "" then return rest
    else if needsParentheses kind member then return ("(" ++ text ++ ")") :: rest
    else return text :: rest

end

def renderFor (form : QueryForm) (query : Query) (info : Meta) (mapping : SourceMapping) :
    Except RenderError Rendered := do
  let body ← form.condition mapping query.tree
  let functions := (form.functions?.map (· query.pipeline.functions)).getD ""
  let unsupported := query.pipeline.notSupported ++
    (if form.functions?.isSome then [] else query.pipeline.functions.map (·.raw))
  let text := layOut form.layout (form.lead mapping info) body functions
  return {
    mapping := mapping.id
    query := form.envelope text mapping info ++
      annex unsupported form.commentOpening form.commentClosing }

/-- Render a query for each of its mappings. -/
def render (form : QueryForm) (query : Query) : Except RenderError (List Rendered) :=
  let info := query.info.getD .initial
  (form.repository.select info.mappingIds).mapM (form.renderFor query info)

end QueryForm

end Detection

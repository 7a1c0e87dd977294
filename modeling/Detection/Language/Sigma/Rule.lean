import Detection.Language.Sigma.Condition
import Detection.Yaml.Decode

/-!
# Sigma rules

A rule is a YAML document. Its detection block holds selections and a condition
over them. A selection is a table of comparisons that all have to hold, a list
of which one has to, or words that are searched in the whole event. The keys of
a table name a field and modifiers behind bars.
-/
namespace Detection.Sigma

open Text

/-- A key of a selection: the field, how it is compared, whether all values have to
match, and whether only its presence counts. -/
structure FieldKey where
  field : String
  operator : Operator := .eq
  all : Bool := false
  existence : Bool := false

/-- Why a table of comparisons cannot be read. -/
inductive PredicateFault
  | modifier (name field : String)
  | existence (field : String)

def FieldKey.withModifier (key : FieldKey) (modifier : String) : Except PredicateFault FieldKey :=
  match lower (trim modifier) with
  | "contains" => .ok { key with operator := .contains }
  | "startswith" => .ok { key with operator := .startsWith }
  | "endswith" => .ok { key with operator := .endsWith }
  | "re" | "regex" => .ok { key with operator := .regex }
  | "lt" => .ok { key with operator := .lt }
  | "lte" => .ok { key with operator := .lte }
  | "gt" => .ok { key with operator := .gt }
  | "gte" => .ok { key with operator := .gte }
  | "all" => .ok { key with all := true }
  | "exists" => .ok { key with existence := true }
  | "cased" | "i" | "m" | "s" | "" => .ok key
  | _ => .error (.modifier modifier key.field)

def FieldKey.ofText (text : String) : Except PredicateFault FieldKey :=
  match splitAt '|' text with
  | [] => .ok { field := "" }
  | field :: modifiers => modifiers.foldlM FieldKey.withModifier { field }

/-- The value of a scalar: a number if it is tagged as one and can be read as one,
else a text. -/
def scalarValue : Yaml.Node → Value
  | .scalar content =>
    if content.tag == "!!int" || content.tag == "!!float" then
      match Value.ofNumeral content.text with
      | .ok number => number
      | .error _ => .text content.text
    else .text content.text
  | other => .text other.rawText

/-- The comparison of a field with one value. -/
def predicate (field : Field) (operator : Operator) (node : Yaml.Node) : List Token :=
  if node.isNull then [.leaf (.comparison field .isNone (.text "") {})]
  else match scalarValue node with
    | .text content =>
      if operator = .regex then [.leaf (.comparison field operator (.text content) {})]
      else
        let promotion := promoteWildcards operator content.toList ['*']
        let leaf := Token.leaf
          (.comparison field promotion.operator promotion.value promotion.wildcards)
        if promotion.negate then [.not, .opening, leaf, .closing] else [leaf]
    | value => [.leaf (.comparison field operator value {})]

/-- Whether an item of a list is a scalar without wildcards. -/
def isPlainItem : Yaml.Node → Bool
  | .scalar content =>
    content.tag != "!!null" && !containsAny content.text ['*', '?']
  | _ => false

/-- The items of a value: those of a list, or the value itself. -/
def itemsOf : Yaml.Node → List Yaml.Node
  | .sequence _ _ items => items
  | node => [node]

/-- The comparisons that an entry of a table stands for. -/
def entryTokens (keyText : String) (value : Yaml.Node) : Except PredicateFault (List Token) := do
  let key ← FieldKey.ofText keyText
  let field : Field := { name := key.field }
  let items := itemsOf value
  if key.existence then
    match (Yaml.Decoding.finish value.bool?) with
    | .ok wanted =>
      return [.leaf (.comparison field (if wanted.getD false then .isNotNone else .isNone)
        (.text "") {})]
    | .error _ => throw (.existence key.field)
  else if key.operator = .eq && !key.all && items.length > 1 && items.all isPlainItem then
    return [.leaf (.comparison field .eq (.list (items.map scalarValue)) {})]
  else
    let tokens := joinTokens (if key.all then .and else .or)
      (items.map (predicate field key.operator))
    return if items.length > 1 then enclosed tokens else tokens

/-- The comparisons of a table, which all have to hold. -/
def tableTokens (entries : List (Yaml.Node × Yaml.Node)) : Except PredicateFault (List Token) :=
  entries.foldlM (fun tokens (key, value) => do
    let more ← entryTokens key.rawText value
    return (if tokens.isEmpty then tokens else tokens ++ [.and]) ++ more) []

/-- A search for a word in the whole event. -/
def keyword (node : Yaml.Node) : Token :=
  let promotion := promoteWildcards .eq node.rawText.toList ['*']
  let value := if promotion.operator = .isNotNone then .text "" else promotion.value
  .leaf (.keyword .keyword value promotion.wildcards)

/-- The fault of a table as one of the rule. -/
def PredicateFault.inSelection (selection : String) (item : Option Nat) :
    PredicateFault → DetectionFault
  | modifier name field => .badModifier selection item name field
  | existence field => .badExistence selection item field

/-- The tokens of an item of a selection. -/
def itemTokens (selection : String) (index : Nat) :
    Yaml.Node → Except DetectionFault (List Token)
  | .mapping _ _ entries => do
    let tokens ← (tableTokens entries).mapError (·.inSelection selection (some index))
    return enclosed tokens
  | .scalar content => .ok [keyword (.scalar content)]
  | _ => .error (.itemKind selection index)

def selectionTokens (selection : String) : Yaml.Node → Except DetectionFault (List Token)
  | .mapping _ _ entries => (tableTokens entries).mapError (·.inSelection selection none)
  | .sequence _ _ items => do
    let groups ← (items.zipIdx).mapM fun (item, index) => itemTokens selection index item
    return joinTokens .or groups
  | .scalar content => .ok [keyword (.scalar content)]
  | .reference .. => .error (.selectionKind selection)

def conditionList : Yaml.Node → Except DetectionFault (List String)
  | .scalar content => .ok [content.text]
  | .sequence flow line items =>
    match (Yaml.Decoding.finish (Yaml.Node.texts? (.sequence flow line items))) with
    | .ok texts => .ok (texts.getD [])
    | .error _ => .error .badCondition
  | _ => .error .conditionKind

/-- A detection block that is being read. -/
structure DetectionBlock where
  selections : Selections := {}
  conditions : List String := []

/-- Take in an entry of a detection block. -/
def DetectionBlock.withEntry (block : DetectionBlock) (name : String) (node : Yaml.Node) :
    Except DetectionFault DetectionBlock :=
  match name with
  | "condition" => do return { block with conditions := ← conditionList node }
  | "timeframe" => .ok block
  | _ => do
    let tokens ← selectionTokens name node
    return { block with selections := block.selections.add name tokens }

/-- The part of a condition before its first bar, and the text behind it. -/
def cutAggregation (condition : String) : String × String :=
  match cutAt? (· == '|') condition.toList with
  | some (before, after) => (String.ofList before, trim (String.ofList after))
  | none => (condition, "")

/-- The tokens of a detection block, and the aggregations of its conditions. One of
several conditions has to hold. -/
def DetectionBlock.tokens (block : DetectionBlock) :
    Except DetectionFault (List Token × List String) := do
  if block.conditions.isEmpty then throw .noCondition
  let parts := block.conditions.map cutAggregation
  let groups ← parts.mapM fun (expression, _) => expand block.selections expression
  let groups := if groups.length > 1 then groups.map enclosed else groups
  return (joinTokens .or groups, (parts.map Prod.snd).filter (· != ""))

/-- The entries of a rule that count. -/
structure RuleContent where
  info : Meta := {}
  logSource : List (String × String) := []
  detection : Option Yaml.Node := none

/-- The names of the entries of a rule that count. -/
def ruleNames : List String :=
  ["title", "id", "description", "author", "date", "level", "status", "license", "references",
    "tags", "falsepositives", "logsource", "detection"]

def RuleContent.withEntry (rule : RuleContent) (key : String) (node : Yaml.Node) :
    Yaml.Decoding RuleContent := do
  let text : Yaml.Decoding String := do return (← node.text?).getD ""
  let texts : Yaml.Decoding (List String) := do return (← node.texts?).getD []
  let info := rule.info
  match key with
  | "title" => return { rule with info := { info with title := ← text } }
  | "id" => return { rule with info := { info with id := trim (← text) } }
  | "description" => return { rule with info := { info with description := ← text } }
  | "author" => return { rule with info := { info with author := ← text } }
  | "date" => return { rule with info := { info with date := ← text } }
  | "level" => return { rule with info := { info with severity := ← text } }
  | "status" => return { rule with info := { info with status := ← text } }
  | "license" => return { rule with info := { info with license := ← text } }
  | "references" => return { rule with info := { info with references := ← texts } }
  | "tags" => return { rule with info := { info with tags := ← texts } }
  | "falsepositives" => return { rule with info := { info with falsePositives := ← texts } }
  | "logsource" => return { rule with logSource := (← node.textTable?).getD [] }
  | "detection" => return { rule with detection := some node }
  | _ => return rule

/-- The keys of the log source that are hints. -/
def hintKeys : List String := ["product", "category", "service"]

/-- The hints that the log source of a rule gives. -/
def hintsOf (logSource : List (String × String)) : Hints :=
  hintKeys.filterMap fun key =>
    let value := trim ((logSource.lookup key).getD "")
    if value.isEmpty then none else some (key, [value])

def ruleContent (text : String) : Except Yaml.Fault RuleContent :=
  Yaml.Decoding.finish do
    (← Yaml.document ruleNames text).foldlM (fun rule (key, node) => rule.withEntry key node) {}

def read (repository : Repository) (text : String) (info : Option Meta) :
    Except ReadError Query := do
  let rule ← (ruleContent text).mapError fun _ => ⟨.ruleDocument, none⟩
  let info := (Meta.initial.merge rule.info).merge? info
  let found : Except DetectionFault (List Token × List String) :=
    match rule.detection with
    | some (.mapping _ _ entries) => do
      let block ← entries.foldlM
        (fun (block : DetectionBlock) (name, node) => block.withEntry name.rawText node) {}
      block.tokens
    | _ => .error .noDetection
  let (tokens, aggregations) ← found.mapError fun fault => ⟨.detection fault, some info⟩
  Query.ofTokens repository tokens (hintsOf rule.logSource) info { notSupported := aggregations }

/-- How the signatures of mappings are made. -/
def signature : SignatureForm :=
  ⟨.exact, .nothing⟩

end Detection.Sigma

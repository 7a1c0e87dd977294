import Detection.Defect
import Detection.Text.Quoted

/-!
# Why a query cannot be rendered

A platform may be unable to express a construct, or a mapping may not know a
field that has to be mapped. The message names the platform that was asked.
-/
namespace Detection

open Text

/-- Whether another way of writing a construct may still be found. -/
inductive Tier
  | hard
  | soft
  deriving DecidableEq, Repr

/-- Why a query cannot be rendered. -/
inductive RenderError
  /-- The platform has nothing like the construct. -/
  | construct (platform what : String) (tier : Tier)
  /-- The value is a regular expression beyond what the platform can search for. -/
  | regex (platform field value : String) (unmapped : Bool)
  /-- The field has to be mapped and is not. A search in the raw message may have
  been tried and have failed, too. -/
  | strictMapping (platform field source : String) (attempt : Option String)
  /-- A value of a rule document does not read back. -/
  | document
  /-- The query holds something that no reader produces. -/
  | defect (cause : Defect)
  deriving Repr

def RenderError.message : RenderError → String
  | construct platform what _ => platform ++ ": unsupported construct " ++ what
  | regex platform field value unmapped =>
    "complex regex is not supported for " ++ (if unmapped then "unmapped " else "") ++
      "field " ++ field ++ " on " ++ platform ++ ": " ++ quote value
  | strictMapping platform field source attempt =>
    platform ++ ": field " ++ field ++ " is not mapped for source " ++ source ++
      (match attempt with
      | some failure => ": " ++ failure
      | none => "")
  | document => "yaml: a value of the document does not read back"
  | defect cause => cause.message?.getD ""

/-- A computation that may meet a defect, as part of rendering. -/
def Except.orDefect {α : Type} : Except Defect α → Except RenderError α
  | .ok result => .ok result
  | .error defect => .error (.defect defect)

end Detection

import Detection.Escape
import Detection.Meta
import Detection.Value

/-!
# Parts of rendered queries

Literals between quotes, values with wildcards as regular expressions, severity
scales, and the comment block that lists what could not be expressed.
-/
namespace Detection

open Text

namespace Value

/-- Whether stars in a value stand for any run of characters. -/
def isSpecial : Value → Bool
  | pattern _ special => special
  | _ => false

/-- The kind of literal as which a value is escaped: a regular expression if it
has wildcards, else the kind that the caller asks for. -/
def literalKind (value : Value) (kind : LiteralKind) : LiteralKind :=
  if value.isSpecial then .regex else kind

/-- A single value as a literal. A number is written as it is, a text escaped and
between quotes. -/
def literal (escaping : Escaping) (kind : LiteralKind) (quote : String) :
    Value → Except Defect String
  | number lexeme => .ok lexeme
  | text content => .ok (quote ++ escaping.escape kind content ++ quote)
  | pattern content _ => .ok (quote ++ escaping.escape kind content ++ quote)
  | list _ => .error .listLiteral
  | absent => .error (.unknownValue "render")

/-- A single value as a literal between quotes, a number included. -/
def quotedLiteral (escaping : Escaping) (kind : LiteralKind) (quote : String) :
    Value → Except Defect String
  | number lexeme => .ok (quote ++ lexeme ++ quote)
  | value => value.literal escaping kind quote

end Value

/-- Escape the parts of a text between its stars, and join them by something else. -/
def Escaping.overStars (escaping : Escaping) (kind : LiteralKind) (joint text : String) : String :=
  join joint ((splitAt '*' text).map (escaping.escape kind))

/-- A text with wildcards as the body of a regular expression. -/
def globToRegex (escaping : Escaping) (text : String) : String :=
  escaping.overStars .regex ".*" text

/-- The levels of a platform for the four severities; an empty one is not used. -/
structure SeverityScale where
  critical : String
  high : String
  medium : String
  low : String

/-- The level for a severity. A severity that is unknown or not used gets the
lowest level that is used. -/
def SeverityScale.level (scale : SeverityScale) (severity : String) : String :=
  let own := match severity with
    | "critical" => scale.critical
    | "high" => scale.high
    | "medium" => scale.medium
    | "low" => scale.low
    | _ => ""
  if own != "" then own
  else ([scale.low, scale.medium, scale.high, scale.critical].find? (· != "")).getD ""

/-- A line as a comment. A comment without an end mark has a space behind its
beginning. -/
def commentLine (opening closing line : String) : String :=
  if closing == "" then opening ++ " " ++ line else opening ++ line ++ closing

/-- The comment block that lists what could not be expressed. -/
def annex (notSupported : List String) (opening closing : String) : String :=
  if notSupported.isEmpty then ""
  else
    "\n\n" ++ commentLine opening closing
      "The following functions are not supported by the platform and were not translated:" ++
      String.join (notSupported.map fun item => "\n" ++ commentLine opening closing item)

end Detection

import Detection.Text.Pieces

/-!
# Alternations

A regular expression that uses nothing but bars and stars can be searched for as
texts: one of the alternatives between the bars has to occur, and an alternative
occurs if all of its parts between the stars do. Any other construct of a
regular expression is beyond that.
-/
namespace Detection

open Text

/-- The constructs beyond bars and stars. -/
def complexMarkers : List String :=
  ["[", "]", "(", ")", "\x7b", "\x7d", "+", "?", "^", "$", "\\d", "\\w", "\\s"]

/-- Whether a text uses a construct of regular expressions beyond bars and stars. -/
def isComplexRegex (text : String) : Bool :=
  complexMarkers.any (contains text)

/-- Whether a text uses any construct of regular expressions. -/
def isRegexLike (text : String) : Bool :=
  contains text "|" || contains text "*" || isComplexRegex text

/-- The pieces of a text between the separators that no backslash precedes. The
accumulator holds the piece being read, last character first. -/
def splitUnescapedFrom (separator : Char) (before : Option Char) (current : List Char) :
    List Char → List (List Char)
  | [] => [current.reverse]
  | c :: rest =>
    if c == separator && before != some '\\' then
      current.reverse :: splitUnescapedFrom separator (some c) [] rest
    else splitUnescapedFrom separator (some c) (c :: current) rest

/-- The pieces of a text between the separators that no backslash precedes. -/
def splitUnescaped (separator : Char) (text : List Char) : List (List Char) :=
  splitUnescapedFrom separator none [] text

/-- The alternatives of a text, each as the parts between its stars. Empty parts
and alternatives without parts are left out. -/
def splitAlternation (text : List Char) : List (List (List Char)) :=
  ((splitUnescaped '|' text).map fun alternative =>
    (splitUnescaped '*' alternative).filter (!·.isEmpty)).filter (!·.isEmpty)

/-- The search for an alternation, with one clause for each part. -/
def alternationContains (text orWord andWord : String) (clause : String → String) : String :=
  let alternatives := (splitAlternation text.toList).map fun parts =>
    "(" ++ join (" " ++ andWord ++ " ") (parts.map fun part => clause (String.ofList part)) ++ ")"
  match alternatives with
  | [only] => only
  | several => "(" ++ join (" " ++ orWord ++ " ") several ++ ")"

end Detection

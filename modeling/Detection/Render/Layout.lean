import Detection.Text.Blank
import Detection.Text.Pieces

/-!
# The layout of a query

A layout is a text with three holes: for what stands before the condition, for
the condition, and for the functions behind it. What a layout says about a part
that is empty goes away with it.
-/
namespace Detection

open Text

/-- The hole for what stands before the condition. -/
def leadHole : List Char := "\x7bprefix\x7d".toList

def bodyHole : List Char := "\x7bquery\x7d".toList

def functionsHole : List Char := "\x7bfunctions\x7d".toList

/-- Fill the holes of a layout. What is filled in is not looked at again. `skip`
characters still belong to the last hole. -/
def fillHoles (lead body functions : List Char) : Nat → List Char → List Char
  | _, [] => []
  | skip + 1, _ :: rest => fillHoles lead body functions skip rest
  | 0, c :: rest =>
    if leadHole.isPrefixOf (c :: rest) then
      lead ++ fillHoles lead body functions (leadHole.length - 1) rest
    else if bodyHole.isPrefixOf (c :: rest) then
      body ++ fillHoles lead body functions (bodyHole.length - 1) rest
    else if functionsHole.isPrefixOf (c :: rest) then
      functions ++ fillHoles lead body functions (functionsHole.length - 1) rest
    else c :: fillHoles lead body functions 0 rest

/-- The layout without what stands before the condition. -/
def dropLead (layout : List Char) : List Char :=
  match cutPiece? bodyHole layout with
  | some (_, after) => bodyHole ++ after
  | none => layout

/-- The layout without the condition and what ties it to the part before it. -/
def dropBody (layout : List Char) : List Char :=
  match cutPiece? leadHole layout with
  | none => layout
  | some (before, after) =>
    match cutPiece? bodyHole before, cutPiece? bodyHole after with
    | none, some (_, tail) => before ++ leadHole ++ tail
    | _, _ => layout

def layOut (layout lead body functions : String) : String :=
  let layout := layout.toList
  let layout := if lead == "" then dropLead layout else layout
  let layout := if body == "" then dropBody layout else layout
  String.ofList (trimChars (fillHoles lead.toList body.toList functions.toList 0 layout))

/-- The layout that is used where none is given. -/
def defaultLayout : String := "\x7bprefix\x7d \x7bquery\x7d \x7bfunctions\x7d"

end Detection

import Detection.Text.Blank
import Detection.Text.LetterCase

/-!
# Text patterns

A pattern describes pieces of text. Where it can match at one place in several
ways the ways are ordered: an alternative is tried before the one behind it, and
a repetition goes on before it stops, or stops before it goes on when it is
reluctant. `Pattern.ends` lists what is left of the text after each way, the
preferred way first; the match is the first of the list.

The body of a repetition must not match the empty text. Every pattern of this
library keeps to that, so a repetition never needs more turns than the text has
characters.
-/
namespace Detection.Text

/-- The description of a piece of text. -/
inductive Pattern
  /-- The empty text. -/
  | nothing
  /-- One character of a class. -/
  | one (accepts : Char → Bool)
  /-- One pattern behind the other. -/
  | both (first second : Pattern)
  /-- One of two patterns, the first if it fits. -/
  | either (preferred other : Pattern)
  /-- As many repetitions as possible. -/
  | many (body : Pattern)
  /-- As few repetitions as possible. -/
  | few (body : Pattern)
  /-- The beginning of the text. -/
  | start
  /-- The end of the text. -/
  | stop
  /-- A border between a word character and anything else. -/
  | wordEdge
  /-- A pattern whose matched piece is kept under a name. -/
  | named (name : String) (body : Pattern)

/-- A place in a text: the character in front of it, the text behind it, and the
pieces that were kept on the way. -/
structure Spot where
  before : Option Char
  rest : List Char
  groups : List (String × List Char)

/-- Letters, digits and the underscore of ASCII. -/
def isWord (c : Char) : Bool :=
  c.isAlphanum || c == '_'

/-- Whether a word begins or ends at a place. -/
def Spot.atWordEdge (spot : Spot) : Bool :=
  spot.before.any isWord != spot.rest.head?.any isWord

/-- The piece of text between a place and a later one. -/
def Spot.taken (spot later : Spot) : List Char :=
  spot.rest.take (spot.rest.length - later.rest.length)

/-- The places after up to `turns` repetitions of a step, longest first or
shortest first. -/
def repeated (step : Spot → List Spot) (reluctant : Bool) : Nat → Spot → List Spot
  | 0, spot => [spot]
  | turns + 1, spot =>
    let further := (step spot).flatMap (repeated step reluctant turns)
    if reluctant then spot :: further else further ++ [spot]

/-- The places at which a match from `spot` on can end, the preferred one first. -/
def Pattern.ends : Pattern → Spot → List Spot
  | .nothing, spot => [spot]
  | .one accepts, spot =>
    match spot.rest with
    | c :: rest => if accepts c then [{ spot with before := some c, rest }] else []
    | [] => []
  | .both first second, spot => (first.ends spot).flatMap second.ends
  | .either preferred other, spot => preferred.ends spot ++ other.ends spot
  | .many body, spot => repeated body.ends false spot.rest.length spot
  | .few body, spot => repeated body.ends true spot.rest.length spot
  | .start, spot => if spot.before.isNone then [spot] else []
  | .stop, spot => if spot.rest.isEmpty then [spot] else []
  | .wordEdge, spot => if spot.atWordEdge then [spot] else []
  | .named name body, spot =>
    (body.ends spot).map fun later =>
      { later with groups := (name, spot.taken later) :: later.groups }

namespace Pattern

/-- Several patterns behind each other. -/
def seq : List Pattern → Pattern
  | [] => .nothing
  | [last] => last
  | first :: others => .both first (seq others)

/-- The first pattern of a list that fits. -/
def oneOf : List Pattern → Pattern
  | [] => .one fun _ => false
  | [last] => last
  | first :: others => .either first (oneOf others)

/-- At least one repetition, as many as possible. -/
def many1 (body : Pattern) : Pattern :=
  .both body (.many body)

/-- The pattern or nothing, the pattern if it fits. -/
def optional (body : Pattern) : Pattern :=
  .either body .nothing

/-- Exactly `count` repetitions. -/
def times (count : Nat) (body : Pattern) : Pattern :=
  seq (List.replicate count body)

/-- At most `count` repetitions, as many as possible. -/
def atMost (body : Pattern) : Nat → Pattern
  | 0 => .nothing
  | count + 1 => optional (.both body (atMost body count))

def char (c : Char) : Pattern :=
  .one (· == c)

def literal (text : String) : Pattern :=
  seq (text.toList.map char)

/-- The characters of a text in any letter case. -/
def anyCase (text : String) : Pattern :=
  seq (text.toList.map fun c => .one fun x => foldKey x == foldKey c)

def spaces : Pattern := .many (.one isSpace)

/-- At least one character of white space. -/
def spaces1 : Pattern := many1 (.one isSpace)

end Pattern

def Pattern.matchAt? (pattern : Pattern) (spot : Spot) : Option Spot :=
  (pattern.ends spot).head?

/-- A text cut along the matches of a pattern: characters outside any match, and
matches with the pieces kept in them. -/
inductive Piece
  | plain (c : Char)
  | hit (text : List Char) (groups : List (String × List Char))

/-- Cut a text along the matches of a pattern. Matches do not overlap, and each
begins as far to the left as it can. -/
def Pattern.pieces (pattern : Pattern) (before : Option Char) (text : List Char) : List Piece :=
  match text with
  | [] => []
  | c :: rest =>
    match pattern.matchAt? ⟨before, c :: rest, []⟩ with
    | none => .plain c :: pattern.pieces (some c) rest
    | some later =>
      if later.rest.length < (c :: rest).length then
        .hit (Spot.taken ⟨before, c :: rest, []⟩ later) later.groups ::
          pattern.pieces later.before later.rest
      else .plain c :: pattern.pieces (some c) rest
termination_by text.length
decreasing_by all_goals (simp only [List.length_cons] at *; omega)

/-- The text of a piece, after a change of the matches. -/
def Piece.edit (change : List Char → List (String × List Char) → List Char) : Piece → List Char
  | .plain c => [c]
  | .hit text groups => change text groups

def Pattern.replaceAll (pattern : Pattern)
    (change : List Char → List (String × List Char) → List Char) (text : List Char) : List Char :=
  (pattern.pieces none text).flatMap (Piece.edit change)

/-- The matches of a pattern in a text, in order. -/
def Pattern.findAll (pattern : Pattern) (text : List Char) : List (List Char) :=
  (pattern.pieces none text).filterMap fun
    | .plain _ => none
    | .hit matched _ => some matched

/-- The text before the first match of a pattern, and the pieces kept in the match. -/
def Pattern.firstMatch? (pattern : Pattern) (text : List Char) :
    Option (List Char × List (String × List Char)) :=
  let pieces := pattern.pieces none text
  let before := pieces.takeWhile fun
    | .plain _ => true
    | .hit .. => false
  match pieces.drop before.length with
  | .hit _ groups :: _ => some (before.flatMap (Piece.edit fun _ _ => []), groups)
  | _ => none

/-- Whether a pattern matches at the beginning of a text up to its end. -/
def Pattern.matchesWhole (pattern : Pattern) (text : List Char) : Bool :=
  (pattern.ends ⟨none, text, []⟩).any (·.rest.isEmpty)

end Detection.Text

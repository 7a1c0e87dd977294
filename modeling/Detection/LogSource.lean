import Detection.Meta
import Detection.Text.Pattern
import Detection.Text.Pieces

/-!
# Log-source selectors

Some comparisons of a query do not filter events but choose the log they come
from. They are taken out of the text before it is read, and their values become
hints for choosing a source mapping. A selector that starts inside a quoted text
belongs to a value and stays where it is.

What is left is cleaned: connectives that have lost an operand and parentheses
that have become empty are removed, until nothing more can be.
-/
namespace Detection

open Text

/-- A selector: the key its values are kept under, and its pattern, which marks a
single value by the name `value` or a list of values by the name `values`. -/
structure Selector where
  key : String
  pattern : Pattern
  /-- The form in which a value is kept. -/
  normalize : String → String := id

namespace Selector

/-- For each character, whether it lies in a quoted text: behind the opening mark
up to and including the closing one. A backslash protects the next character in
double quotes only, and a text that is not closed goes on to the end. -/
def quotedFlags (quote : Option Char) (protect : Bool) : List Char → List Bool
  | [] => []
  | c :: rest =>
    match quote with
    | none =>
      false :: quotedFlags (if c == '"' || c == '\'' then some c else none) false rest
    | some mark =>
      if protect then true :: quotedFlags quote false rest
      else if c == '\\' && mark == '"' then true :: quotedFlags quote true rest
      else if c == mark then true :: quotedFlags none false rest
      else true :: quotedFlags quote false rest

/-- A match of a selector in a text. -/
structure Selection where
  before : List Char
  groups : List (String × List Char)
  after : List Char

/-- The text with a blank in place of the match. -/
def Selection.rest (found : Selection) : List Char :=
  found.before ++ ' ' :: found.after

/-- The text that the pieces were cut from. -/
def joinPieces (pieces : List Piece) : List Char :=
  pieces.flatMap (Piece.edit fun text _ => text)

/-- The first match that does not start inside a quoted text. -/
def firstUnquoted (before : List Char) : List Bool → List Piece → Option Selection
  | _, [] => none
  | flags, .plain c :: rest => firstUnquoted (c :: before) flags.tail rest
  | flags, .hit text groups :: rest =>
    if flags.head? == some true then
      firstUnquoted (text.reverse ++ before) (flags.drop text.length) rest
    else some ⟨before.reverse, groups, joinPieces rest⟩

/-- The first match of a selector in a text outside quotes. -/
def find? (selector : Selector) (text : List Char) : Option Selection :=
  firstUnquoted [] (quotedFlags none false text) (selector.pattern.pieces none text)

/-- A piece of text between single quotes, in which two quotes are one. -/
def singleQuotedPattern : Pattern :=
  .seq [.char '\'', .many (.either (.one (· != '\'')) (.literal "''")), .char '\'']

/-- A piece of text between double quotes. -/
def doubleQuotedPattern : Pattern :=
  .seq [.char '"', .many (.one (· != '"')), .char '"']

def listItem : Pattern :=
  .oneOf [singleQuotedPattern, doubleQuotedPattern,
    .many1 (.one fun c => !(c == ',' || isSpace c))]

/-- A value without the quotes around it. -/
def trimQuotes (text : List Char) : List Char :=
  match text with
  | mark :: rest =>
    if (mark == '\'' || mark == '"') && rest.getLast? == some mark then
      replaceChars ['\'', '\''] ['\''] rest.dropLast
    else text
  | [] => []

def values (selector : Selector) (groups : List (String × List Char)) : List String :=
  let single := (groups.lookup "value").toList
  let several := ((groups.lookup "values").map listItem.findAll).getD []
  (single ++ several).map fun value => selector.normalize (String.ofList (trimQuotes value))

/-- Take every match of a selector out of a text. -/
def takeAll (selector : Selector) (hints : Hints) (text : List Char) : Hints × List Char :=
  match selector.find? text with
  | none => (hints, text)
  | some found =>
    let hints := (selector.values found.groups).foldl
      (fun hints value => hints.add selector.key value) hints
    if found.rest.length < text.length then selector.takeAll hints found.rest
    else (hints, found.rest)
termination_by text.length

/-- One of the words `and` and `or`. -/
def connective : Pattern :=
  .either (.anyCase "and") (.anyCase "or")

def emptyParens : Pattern :=
  .seq [.char '(', .spaces, .char ')']

/-- A connective behind an opening or in front of a closing parenthesis. -/
def danglingInside : Pattern :=
  .either (.seq [.char '(', .spaces, connective, .spaces1])
    (.seq [.spaces1, connective, .spaces, .char ')'])

def doubledConnective : Pattern :=
  .seq [.wordEdge, .named "first" connective,
    .many1 (.seq [.spaces1, connective, .wordEdge])]

def danglingLead : Pattern :=
  .seq [.start, .spaces, connective, .spaces1]

def danglingTrail : Pattern :=
  .seq [.spaces1, connective, .spaces, .stop]

def cleanOnce (text : List Char) : List Char :=
  let text := emptyParens.replaceAll (fun _ _ => [' ']) text
  let text := danglingInside.replaceAll
    (fun found _ => if found.contains '(' then ['('] else [')']) text
  let text := doubledConnective.replaceAll
    (fun _ groups => (groups.lookup "first").getD []) text
  let text := danglingLead.replaceAll (fun _ _ => []) text
  danglingTrail.replaceAll (fun _ _ => []) text

/-- Clean a text as long as that makes it shorter. -/
def cleanAll (text : List Char) : List Char :=
  if (cleanOnce text).length < text.length then cleanAll (cleanOnce text)
  else cleanOnce text
termination_by text.length

/-- Clean a text and write one blank for every run of white space. -/
def clean (text : List Char) : List Char :=
  trimChars (Pattern.spaces1.replaceAll (fun _ _ => [' ']) (cleanAll text))

/-- Take all selectors out of a query, one after the other. The result is the
hints and the query that is left. -/
def extract (selectors : List Selector) (query : String) : Hints × String :=
  let (hints, text) := selectors.foldl
    (fun (hints, text) selector => selector.takeAll hints text) ([], query.toList)
  (hints, String.ofList (clean text))

/-- A selector `key = value` whose name stands at the border of a word. -/
def equality (key : String) (name value : Pattern) : Selector where
  key
  pattern := .seq [.wordEdge, name, .spaces, .char '=', .spaces, .named "value" value]

/-- A selector `key in (values)` whose name stands at the border of a word. -/
def membership (key : String) (name : Pattern) : Selector where
  key
  pattern := .seq [.wordEdge, name, .spaces1, .anyCase "in", .spaces, .char '(',
    .named "values" (.many (.one (· != ')'))), .char ')']

/-- A value in double quotes, or up to white space or a parenthesis. -/
def wordValue : Pattern :=
  .either doubleQuotedPattern (.many1 (.one fun c => !(isSpace c || c == '(' || c == ')')))

end Selector

end Detection

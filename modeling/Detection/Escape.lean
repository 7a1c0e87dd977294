import Detection.Defect
import Detection.Text.NameChar
import Detection.Text.Pieces

/-!
# Escaping of literals

A query language protects some characters inside its literals. Which ones, and
how, depends on the kind of the literal, so a dialect has a list of rules for
each kind. Escaping applies the rules of a kind in order, and unescaping undoes
them in the opposite order, as far as they can be undone.

The mark that a rule puts in front of a symbol is a template: a dollar sign in it
refers to a part of the match. Since the match is the symbol alone, `${1}` and
`${0}` stand for the symbol and every other reference for nothing.
-/
namespace Detection

open Text

/-- The kinds of literal that a dialect may escape differently. -/
inductive LiteralKind
  | value
  | regex
  | contains
  | doubleQuoted
  | singleQuoted
  | unquoted
  | other (name : String)
  deriving DecidableEq, Repr

namespace LiteralKind

def name : LiteralKind → String
  | value => "value"
  | regex => "re_value"
  | contains => "contains_value"
  | doubleQuoted => "d_q_value"
  | singleQuoted => "s_q_value"
  | unquoted => "no_q_value"
  | other name => name

def ofName (text : String) : LiteralKind :=
  ([value, regex, contains, doubleQuoted, singleQuoted, unquoted].find?
    (·.name == text)).getD (other text)

end LiteralKind

/-- What the name of a reference in a template stands for: the symbol for the
numbers zero and one, and nothing for any other name. -/
def reference (symbol : Char) (name : List Char) : List Char :=
  if name == ['0'] || name == ['1'] then [symbol] else []

/-- Write a template for a symbol. `held` is the number of characters of the text
that belong to a reference already written. -/
def expandFrom (symbol : Char) : Nat → List Char → List Char
  | _, [] => []
  | held + 1, _ :: rest => expandFrom symbol held rest
  | 0, c :: rest =>
    if c != '$' then c :: expandFrom symbol 0 rest
    else match rest with
      | '$' :: _ => '$' :: expandFrom symbol 1 rest
      | '\x7b' :: inner =>
        let name := inner.takeWhile isNameChar
        if !name.isEmpty && (inner.drop name.length).head? == some '\x7d' then
          reference symbol name ++ expandFrom symbol (name.length + 2) rest
        else '$' :: expandFrom symbol 0 rest
      | _ =>
        let name := rest.takeWhile isNameChar
        if name.isEmpty then '$' :: expandFrom symbol 0 rest
        else reference symbol name ++ expandFrom symbol name.length rest

def expandTemplate (template : List Char) (symbol : Char) : List Char :=
  expandFrom symbol 0 template

/-- One step of escaping. -/
inductive EscapeRule
  /-- Put a mark in front of each of some symbols. -/
  | marked (symbols : List Char) (mark : List Char)
  /-- Write a character twice, and read the pair as one if `undone`. -/
  | doubled (symbol : Char) (undone : Bool)
  deriving Repr

namespace EscapeRule

/-- What stands for a symbol behind a mark: the mark's template with the symbol. -/
def markedSymbol (mark : List Char) (symbol : Char) : List Char :=
  expandTemplate (mark ++ ['$', '\x7b', '1', '\x7d']) symbol

def apply : EscapeRule → List Char → List Char
  | marked symbols mark, text =>
    text.flatMap fun c => if symbols.contains c then markedSymbol mark c else [c]
  | doubled symbol _, text => text.flatMap fun c => if c == symbol then [c, c] else [c]

/-- Take a mark away wherever one of the symbols follows it. `held` is the number
of characters that belong to a mark already taken. -/
def unmark (symbols mark : List Char) : Nat → List Char → List Char
  | _, [] => []
  | held + 1, c :: rest =>
    if held == 0 then c :: unmark symbols mark 0 rest else unmark symbols mark held rest
  | 0, c :: rest =>
    match mark.isPrefixOf? (c :: rest) with
    | some (symbol :: _) =>
      if symbols.contains symbol then
        match mark.length with
        | 0 => c :: unmark symbols mark 0 rest
        | length + 1 => unmark symbols mark (length + 1) rest
      else c :: unmark symbols mark 0 rest
    | _ => c :: unmark symbols mark 0 rest

/-- Read every pair of a symbol as one. -/
def undouble (symbol : Char) : List Char → List Char
  | first :: second :: rest =>
    if first == symbol && second == symbol then symbol :: undouble symbol rest
    else first :: undouble symbol (second :: rest)
  | short => short

def undo : EscapeRule → List Char → List Char
  | marked symbols mark, text => unmark symbols mark 0 text
  | doubled symbol undone, text => if undone then undouble symbol text else text

/-- The characters of a class of symbols as a pattern writes them. -/
def classText (symbols : List Char) : String :=
  String.ofList ('[' :: symbols.flatMap (fun c =>
    if '!' ≤ c && c ≤ '~' && !c.isAlphanum then ['\\', c] else [c]) ++ [']'])

/-- A rule that marks symbols. There has to be at least one of them. -/
def symbols (symbols mark : String) : Except Defect EscapeRule :=
  if symbols.isEmpty then
    .error (.emptyClass ("(" ++ classText symbols.toList ++ ")") (classText symbols.toList ++ ")"))
  else .ok (.marked symbols.toList mark.toList)

end EscapeRule

/-- The escape rules of a dialect for each kind of literal. -/
structure Escaping where
  rules : LiteralKind → List EscapeRule

namespace Escaping

/-- The escaping that leaves every text alone. -/
def none : Escaping := ⟨fun _ => []⟩

/-- Apply the rules of a kind in order. -/
def escapeChars (escaping : Escaping) (kind : LiteralKind) (text : List Char) : List Char :=
  (escaping.rules kind).foldl (fun text rule => rule.apply text) text

/-- Undo the rules of a kind, the last one first. -/
def unescapeChars (escaping : Escaping) (kind : LiteralKind) (text : List Char) : List Char :=
  (escaping.rules kind).foldr (fun rule text => rule.undo text) text

/-- The text as it stands in a literal of a kind. -/
def escape (escaping : Escaping) (kind : LiteralKind) (text : String) : String :=
  String.ofList (escaping.escapeChars kind text.toList)

/-- The text that a literal of a kind stands for. -/
def unescape (escaping : Escaping) (kind : LiteralKind) (text : String) : String :=
  String.ofList (escaping.unescapeChars kind text.toList)

/-- Whether a kind of literal has rules. -/
def has (escaping : Escaping) (kind : LiteralKind) : Bool :=
  !(escaping.rules kind).isEmpty

/-- The rule that puts a backslash in front of each of some symbols. -/
def backslash (symbols : String) : EscapeRule :=
  .marked symbols.toList ['\\']

end Escaping

end Detection

import Detection.Text.Pattern
import Detection.Text.Pieces

/-!
# Indicators of compromise

Addresses, names and file hashes that a report mentions. Reports often write
them so that nobody follows them by accident, with brackets around dots or
`hxxp` for `http`; that is undone first. Web addresses and mail addresses are
taken out of the text before names are searched, and numeric addresses before
names, so that no part of one is found again as another.
-/
namespace Detection

open Text

/-- The kinds of indicators, in the order in which they are reported. -/
inductive IndicatorKind
  | ip
  | domain
  | url
  | email
  | md5
  | sha1
  | sha256
  deriving DecidableEq, Repr, Inhabited

namespace IndicatorKind

def all : List IndicatorKind := [ip, domain, url, email, md5, sha1, sha256]

def name : IndicatorKind → String
  | ip => "ip"
  | domain => "domain"
  | url => "url"
  | email => "email"
  | md5 => "md5"
  | sha1 => "sha1"
  | sha256 => "sha256"

def ofName? (text : String) : Option IndicatorKind :=
  all.find? (·.name == text)

end IndicatorKind

/-- An indicator. -/
structure Indicator where
  kind : IndicatorKind
  value : String
  deriving DecidableEq, Repr, Inhabited

namespace Indicator

/-- The disguises of parts of indicators, with what they stand for. -/
def disguises : List (String × String) := [
  ("[.]", "."), ("(.)", "."), ("\x7b.\x7d", "."), ("[:]", ":"), ("[@]", "@"), ("[at]", "@"),
  ("hxxps://", "https://"), ("hxxp://", "http://"),
  ("hXXps://", "https://"), ("hXXp://", "http://")]

/-- The disguise with which a text begins: what it stands for, and what follows. -/
def disguise? (text : List Char) : Option (List Char × List Char) :=
  disguises.findSome? fun (worn, meant) =>
    (dropLeading? worn.toList text).map fun rest => (meant.toList, rest)

def unmask (text : List Char) : List Char :=
  match text with
  | [] => []
  | c :: rest =>
    match disguise? (c :: rest) with
    | some (meant, after) =>
      if after.length < (c :: rest).length then meant ++ unmask after else c :: unmask rest
    | none => c :: unmask rest
termination_by text.length
decreasing_by all_goals (simp only [List.length_cons] at *; omega)

/-- A web address, up to the next blank or mark that ends one. -/
def urlPattern : Pattern :=
  .seq [.wordEdge, .anyCase "http", .optional (.anyCase "s"), .literal "://",
    .many1 (.one fun c => !isSpace c && !"\"'<>`".toList.contains c)]

/-- At least two letters, up to the end of the word. -/
def topLevel : Pattern :=
  .seq [.times 2 (.one Char.isAlpha), .atMost (.one Char.isAlpha) 61, .wordEdge]

def emailPattern : Pattern :=
  .seq [.wordEdge, .many1 (.one fun c => c.isAlphanum || "._%+-".toList.contains c), .char '@',
    .many1 (.both (.many1 (.one fun c => c.isAlphanum || c == '-')) (.char '.')), topLevel]

def octet : Pattern :=
  .both (.one Char.isDigit) (.atMost (.one Char.isDigit) 2)

/-- Four numbers with dots between them. -/
def quadPattern : Pattern :=
  .seq [.wordEdge, .times 3 (.both octet (.char '.')), octet, .wordEdge]

def label : Pattern :=
  .both (.one Char.isAlphanum) (.optional
    (.both (.atMost (.one fun c => c.isAlphanum || c == '-') 61) (.one Char.isAlphanum)))

def domainPattern : Pattern :=
  .seq [.wordEdge, .many1 (.both label (.char '.')), topLevel]

/-- The digits of hexadecimal numbers. -/
def isHexDigit (c : Char) : Bool :=
  c.isDigit || ('a' ≤ c && c ≤ 'f') || ('A' ≤ c && c ≤ 'F')

/-- A word of hexadecimal digits with a given length. -/
def hashPattern (length : Nat) : Pattern :=
  .seq [.wordEdge, .times length (.one isHexDigit), .wordEdge]

/-- Whether digits are a number below 256 without leading zeros. -/
def isOctet (digits : List Char) : Bool :=
  (digits.length == 1 || digits.head? != some '0') && !digits.isEmpty &&
    digits.foldl (fun number digit => number * 10 + (digit.toNat - '0'.toNat)) 0 ≤ 255

/-- Whether a text with four numbers is an address. -/
def isAddress (text : List Char) : Bool :=
  (splitFrom (· == '.') [] text).all isOctet

/-- The endings of file names that look like those of domain names. -/
def fileEndings : List String := [
  "exe", "dll", "sys", "bat", "cmd", "ps1", "vbs", "js", "txt", "log", "zip", "rar", "doc", "docx",
  "xls", "xlsx", "pdf", "lnk", "tmp", "dat", "ini", "py", "sh"]

/-- What follows the last dot of a name. -/
def lastLabel (name : List Char) : String :=
  String.ofList (name.reverse.takeWhile (· != '.')).reverse

/-- A web address without the punctuation behind it. -/
def withoutPunctuation (text : List Char) : List Char :=
  (text.reverse.dropWhile ".,;:)]\x7d".toList.contains).reverse

/-- A text with a blank in place of each match of a pattern. -/
def blankOut (pattern : Pattern) (text : List Char) : List Char :=
  pattern.replaceAll (fun _ _ => [' ']) text

def lowered (text : List Char) : String :=
  lower (String.ofList text)

def ofKind (kind : IndicatorKind) (values : List String) : List Indicator :=
  values.eraseDups.map fun value => ⟨kind, value⟩

/-- Find the indicators in a text: by kind, each once, and in the order of their
first occurrence. -/
def extract (text : String) : List Indicator :=
  let clear := unmask text.toList
  let beyondUrls := blankOut urlPattern clear
  let beyondMail := blankOut emailPattern beyondUrls
  let names := blankOut quadPattern beyondMail
  let hashes (length : Nat) : List String := ((hashPattern length).findAll names).map lowered
  ofKind .ip (((quadPattern.findAll beyondMail).filter isAddress).map String.ofList) ++
    ofKind .domain (((domainPattern.findAll names).filter fun name =>
      !fileEndings.contains (lower (lastLabel name))).map lowered) ++
    ofKind .url
      ((urlPattern.findAll clear).map fun url => String.ofList (withoutPunctuation url)) ++
    ofKind .email ((emailPattern.findAll beyondUrls).map lowered) ++
    ofKind .md5 (hashes 32) ++ ofKind .sha1 (hashes 40) ++ ofKind .sha256 (hashes 64)

end Indicator

end Detection

import Detection.Source

/-!
# QRadar searches

A search is written like a database query. What it selects and where from is not
kept; the clauses behind the condition are carried along as text. A comparison
with the payload of an event is a search in the whole event.
-/
namespace Detection.Aql

open Text Lexer

/-- A single quote inside single quotes is written twice. -/
def escaping : Escaping := ⟨fun
  | .singleQuoted => [.doubled '\'' true]
  | _ => []⟩

/-- The name of the payload in any letter case, a name in double quotes, or a
plain name. -/
def field? (text : List Char) : Found (List Char) :=
  let payload := (wordRest? true "UTF8(payload)".toList text).map fun rest =>
    (text.take (text.length - rest.length), rest)
  let quotedName : Found (List Char) := match text with
    | '"' :: rest =>
      let (name, behind) := spanOf (· != '"') rest
      match behind with
      | '"' :: after => if name.isEmpty then none else some ('"' :: name ++ ['"'], after)
      | _ => none
    | _ => none
  payload <|> quotedName <|>
    name? Dialect.isNameStart (fun c => Dialect.isNameStart c || c.isDigit || c == '.') text

def dialect : Dialect where
  field := field?
  operators :=
    [⟨"not matches", .notRegex, false, none⟩, ⟨"not ilike", .neq, false, some "%"⟩,
      ⟨"imatches", .regex, false, none⟩, ⟨"not like", .neq, false, some "%"⟩,
      ⟨"matches", .regex, false, none⟩, ⟨"not in", .neq, true, none⟩,
      ⟨"ilike", .eq, false, some "%"⟩, ⟨"like", .eq, false, some "%"⟩,
      ⟨"!=", .neq, false, none⟩, ⟨"<=", .lte, false, none⟩, ⟨">=", .gte, false, none⟩,
      ⟨"in", .eq, true, none⟩, ⟨"<", .lt, false, none⟩, ⟨"=", .eq, false, none⟩,
      ⟨">", .gt, false, none⟩]
  foldOperators := true
  singleQuotes? := some .doubled
  connectives := Dialect.commonConnectives
  escaping := escaping

/-- A word character, where letter case does not count. -/
def wordChar : Pattern :=
  .one fun c => isWord c || c == '\u017f' || c == '\u212a'

def twoWords (first second : String) : Pattern :=
  .seq [.anyCase first, .spaces1, .anyCase second]

/-- The part of a search before its condition. -/
def selectClause : Pattern :=
  .seq [.start, .spaces, .anyCase "select", .spaces1, .few (.one fun _ => true), .spaces1,
    .anyCase "from", .spaces1, .many1 wordChar, .spaces,
    .optional (.both (.anyCase "where") .spaces1)]

/-- The beginning of a clause behind the condition. -/
def clauseStart : Pattern :=
  .both (.oneOf [twoWords "group" "by", twoWords "order" "by", .anyCase "having",
    .anyCase "limit", .anyCase "last", .anyCase "start", .anyCase "stop"]) .wordEdge

def tailClause : Pattern :=
  .seq [.spaces1, .named "tail" (.both clauseStart (.many (.one fun _ => true))), .stop]

/-- The clauses of a text, each from its beginning to the next one. What stands
before the first is dropped. -/
def clausesFrom (current : Option (List Char)) : List Piece → List (List Char)
  | [] => current.toList
  | .plain c :: rest => clausesFrom (current.map (· ++ [c])) rest
  | .hit text _ :: rest => current.toList ++ clausesFrom (some text) rest

/-- The clauses behind the condition, one by one. -/
def splitTail (tail : List Char) : List String :=
  (clausesFrom none ((Pattern.both .spaces1 clauseStart).pieces none (' ' :: tail))).map
    fun clause => String.ofList (trimChars clause)

/-- The value of a field that names a source: a text up to the next single quote, or
a number. -/
def hintValue : Pattern :=
  .either (.seq [.char '\'', .many (.one (· != '\'')), .char '\''])
    (.many1 (.one Char.isDigit))

/-- A condition on one of the fields that name a source. -/
def hintSelectors (key name : String) : List Selector :=
  [Selector.equality key (.anyCase name) hintValue,
    Selector.membership key (.anyCase name)]

/-- A condition on the name of the log source, which is left out of the query. -/
def logSourceName : Selector where
  key := ""
  pattern := .seq [.wordEdge, .anyCase "logsourcename", .char '(', .many1 wordChar, .char ')',
    .spaces, .either (.both (.optional (.anyCase "i")) (.anyCase "like")) (.char '='), .spaces,
    .char '\'', .many (.either (.one (· != '\'')) (.literal "''")), .char '\'']

/-- The conditions that say where to look. -/
def selectors : List Selector :=
  hintSelectors "devicetype" "devicetype" ++
    hintSelectors "qideventcategory" "qideventcategory(qid)" ++
    hintSelectors "category" "category" ++ hintSelectors "qid" "qid" ++ [logSourceName]

/-- How the signatures of mappings are made. -/
def signature : SignatureForm :=
  ⟨.set, .pairs "=" " AND " false ["devicetype", "category", "qid"]⟩

/-- A comparison with the payload as a search in the whole event. -/
def payloadKeyword : Token → Token
  | .leaf (.comparison field operator value wildcards) =>
    if lower field.name == "utf8(payload)" then .leaf (.keyword operator value wildcards)
    else .leaf (.comparison field operator value wildcards)
  | token => token

def read (repository : Repository) (text : String) (info : Option Meta) :
    Except ReadError Query := do
  let condition := selectClause.replaceAll (fun _ _ => []) text.toList
  let (condition, clauses) := match tailClause.firstMatch? condition with
    | some (before, groups) => (before, splitTail ((groups.lookup "tail").getD []))
    | none => (condition, [])
  let (hints, condition) := Selector.extract selectors (String.ofList condition)
  let tokens ← dialect.read condition
  Query.ofTokens repository (tokens.map payloadKeyword) hints (Meta.initial.merge? info)
    { notSupported := clauses }

end Detection.Aql

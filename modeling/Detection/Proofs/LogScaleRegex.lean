import Detection.Proofs.Cleaning
import Detection.Proofs.PipelineStages
import Detection.Proofs.SelectorCuts
import Detection.Proofs.SettledTokens
import Detection.Proofs.SoleComparison
import Detection.Proofs.TextReading
import Detection.Proofs.WildcardEnds

/-!
# Comparisons with a regular expression

Three readers look at a LogScale query one after the other: the splitter of the pipeline, the
selector of the kind of event, and the lexer. Only the lexer knows what stands between slashes.
A comparison with a regular expression is therefore read as one unless a bar in the expression
ends the filter, or the end of the field name looks like the selector.
-/
namespace Detection

open Text Lexer Selector Pattern

variable {text rest body : List Char} {tokens : List Token} {selector : Selector}

namespace LogScale

/-- The characters of a field name behind the first one. -/
def isFieldChar (c : Char) : Bool :=
  isFieldStart c || c.isDigit || c == '.'

def IsFieldName (name : List Char) : Prop :=
  ∃ first others, name = first :: others ∧ isFieldStart first = true ∧
    ∀ c ∈ others, isFieldChar c = true

/-- The characters of a plain regular expression: no white space, slash, backslash, quote,
parenthesis or sign of comparison. -/
def isPlain (c : Char) : Bool :=
  !(isBlank c || ['/', '\\', '"', '\'', '(', ')', '=', '<', '>'].contains c)

theorem isPlain_of_isFieldChar {c : Char} (inside : isFieldChar c = true) :
    isPlain c = true ∧ c ≠ '|' := by
  have ascii : c.toNat < 128 := by
    by_cases other : c ∈ ['_', '#', '@', '.']
    · simp only [List.mem_cons, List.not_mem_nil, or_false] at other
      rcases other with rfl | rfl | rfl | rfl <;> decide
    · refine ascii_of_isAlphanum ?_
      simp only [List.mem_cons, List.not_mem_nil, or_false, not_or] at other
      simpa [isFieldChar, isFieldStart, Dialect.isNameStart, Char.isAlphanum, other] using inside
  have codes : ∀ c : Char, c.toNat < 128 → isFieldChar c = true → isPlain c = true ∧ c ≠ '|' :=
    forall_ascii (by decide)
  exact codes c ascii inside

/-- The signs of comparison and the quotes. -/
def signs : List Char := ['=', '<', '>', '"', '\'']

/-- A connective is a word in front of white space, a parenthesis or the end. -/
theorem connective_some {token : Token} (found : dialect.connective? text = some (token, rest)) :
    token.leaf? = none ∧ ∃ taken, text = taken ++ rest ∧ foldKey '=' ∉ taken.map foldKey ∧
      ∀ c ∈ rest.head?, isSpace c = true ∨ c = '(' := by
  have each : ∀ entry ∈ dialect.connectives, ' ' ∉ entry.1.toList ∧
      foldKey '=' ∉ entry.1.toList.map foldKey ∧ entry.2.leaf?.isNone = true := by
    decide
  obtain ⟨entry, member, own⟩ := List.exists_of_findSome?_eq_some found
  obtain ⟨solid, apart, noLeaf⟩ := each entry member
  have folds : dialect.foldConnectives = true := rfl
  cases behind : wordRest? true entry.1.toList text with
  | none => simp [folds, behind] at own
  | some =>
    simp only [folds, behind, Option.ite_none_right_eq_some, Option.some.injEq,
      Prod.mk.injEq] at own
    obtain ⟨ended, rfl, rfl⟩ := own
    obtain ⟨taken, split, folded⟩ := wordRest_taken solid behind
    refine ⟨Option.isNone_iff_eq_none.mp noLeaf, taken, split, folded ▸ apart, ?_⟩
    simpa [Option.all_eq_true] using ended

theorem symbolAfter_none (free : ∀ c ∈ text, c ∉ signs) (spaced : Bool) :
    dialect.symbolAfter? spaced text = none := by
  have each : ∀ spelling ∈ dialect.operators, spelling.isWord = false ∧
      spelling.symbol.toList.any (fun c => c ∈ signs) = true := by
    decide
  rw [Dialect.symbolAfter?, List.findSome?_eq_none_iff]
  intro spelling member
  obtain ⟨noWord, signed⟩ := each spelling member
  obtain ⟨c, inSymbol, isSign⟩ := List.any_eq_true.mp signed
  have absent : spelling.symbol.toList.isPrefixOf? text = none := by
    refine Option.eq_none_iff_forall_ne_some.mpr fun rest found => ?_
    have split := List.isPrefixOf?_eq_some_iff_append_eq.mp found
    exact free c (split ▸ List.mem_append_left _ inSymbol) (of_decide_eq_true isSign)
  simp [noWord, absent]

theorem comparison_none (free : ∀ c ∈ text, c ∉ signs) : dialect.comparison? text = .ok none := by
  have headless : dialect.head? text = none := by
    rw [Dialect.head?]
    cases named : dialect.field text with
    | none => rfl
    | some found =>
      obtain ⟨field, rest⟩ := found
      simp only [Option.map_eq_none_iff]
      refine symbolAfter_none (fun c own => free c ((dialect_solid.field named).suffix.subset ?_)) _
      exact (List.dropWhile_sublist _).subset own
  rw [Dialect.comparison?, headless]

/-- A text without signs has no comparisons. -/
theorem tokensFrom_free (free : ∀ c ∈ text, c ∉ signs)
    (read : dialect.tokensFrom text = .ok tokens) :
    ∀ token ∈ tokens, token.leaf?.bind Leaf.fieldName? = none := by
  fun_induction Dialect.tokensFrom dialect text generalizing tokens with
  | case1 =>
    cases read
    simp
  | case4 text first rest shorter others later start stepped ih =>
    cases read
    have freeStart : ∀ c ∈ text.dropWhile isGap, c ∉ signs := fun c own =>
      free c ((List.dropWhile_sublist _).subset own)
    refine List.forall_mem_append.mpr ⟨?_, ih (fun c own => freeStart c
      ((dialect_solid.step_passes stepped).suffix.subset own)) later⟩
    cases Dialect.stepped_of_step stepped with
    | paren noLeaf _ => simp [noLeaf]
    | connective _ found => simp [(connective_some found).1]
    | comparison compared => simp [comparison_none freeStart] at compared
    | keyword searched => exact (Dialect.of_keyword? searched).2.2
  | case2 | case3 | case5 => cases read

/-- The name that the selector looks for. -/
def kind : List Char := "#event_simpleName".toList

/-- A match of the selector begins with its name and the sign behind it. -/
theorem mem_ends_selector (listed : selector ∈ selectors) {spot later : Spot}
    (member : later ∈ selector.pattern.ends spot) :
    ∃ gap taken, (∀ c ∈ gap, isSpace c = true) ∧
      spot.rest = kind ++ (gap ++ '=' :: (taken ++ later.rest)) := by
  obtain rfl := List.mem_singleton.mp listed
  rw [(describes_literal _).mem_seq] at member
  obtain ⟨_, rfl, text, member⟩ := member
  rw [describes_spaces.mem_seq] at member
  obtain ⟨gap, blank, second, member⟩ := member
  rw [(describes_char '=').mem_seq] at member
  obtain ⟨_, rfl, third, member⟩ := member
  obtain ⟨taken, leads, _⟩ := leads_of_mem_ends _ member
  refine ⟨gap, taken, blank, ?_⟩
  rw [text, second, third, leads.rest]
  rfl

/-- Where the name and the sign stand in front of a slash, there is a match. -/
theorem exists_hit_selector (listed : selector ∈ selectors) (before : Option Char)
    (rest : List Char) :
    ∃ later taken, selector.pattern.hitAt? before (kind ++ '=' :: '/' :: rest) = some later ∧
      '/' :: rest = taken ++ later.rest := by
  let place (taken : List Char) : Spot :=
    Spot.past ⟨before, kind ++ '=' :: '/' :: rest, []⟩ taken
  have valued : ∃ later, later ∈ selector.pattern.ends (place []) := by
    obtain rfl := List.mem_singleton.mp listed
    simp only [ends_seq_cons, List.mem_flatMap]
    refine ⟨_, place kind, (describes_literal _ _ _).mpr ⟨kind, rfl, ?_, rfl⟩,
      place kind, (describes_spaces _ _).mpr ⟨[], by simp, rfl, rfl⟩,
      place (kind ++ ['=']), (describes_char _ _ _).mpr ⟨['='], rfl, ?_, ?_⟩,
      place (kind ++ ['=']), (describes_spaces _ _).mpr ⟨[], by simp, rfl, rfl⟩,
      _, List.mem_map_of_mem (List.mem_append_right _ ((describes_many1 _ _
        (place (kind ++ ['=', '/']))).mpr ⟨['/'], ⟨by simp, List.all_eq_true.mp rfl⟩, ?_, ?_⟩)),
      List.mem_singleton.mpr rfl⟩
    all_goals simp [place, Spot.past]
  obtain ⟨some, member⟩ := valued
  have consumes : selector.pattern.consumes = true := by
    obtain rfl := List.mem_singleton.mp listed
    rfl
  obtain ⟨later, hit⟩ := exists_hitAt consumes member
  obtain ⟨gap, taken, blank, text⟩ := mem_ends_selector listed (mem_ends_of_hitAt hit).1
  refine ⟨later, taken, hit, ?_⟩
  cases gap with
  | nil => simpa using text
  | cons c gap =>
    have sign : '=' = c := (List.cons.inj (List.append_cancel_left text)).1
    exact absurd (blank c List.mem_cons_self) (by simp [← sign, isSpace, isGap])

/-- In a field name, a sign and a text without signs, the selector matches at the end of the
name only. -/
theorem place_of_hit (listed : selector ∈ selectors) {name tail early : List Char}
    {before : Option Char} {later : Spot} (inside : ∀ c ∈ name, isFieldChar c = true)
    (unsigned : '=' ∉ tail) (split : name ++ '=' :: tail = early ++ rest)
    (hit : selector.pattern.hitAt? before rest = some later) : name = early ++ kind := by
  obtain ⟨gap, taken, blank, text⟩ := mem_ends_selector listed (mem_ends_of_hitAt hit).1
  have whole : name ++ '=' :: tail = (early ++ (kind ++ gap)) ++ '=' :: (taken ++ later.rest) := by
    rw [split, show rest = _ from text]
    simp
  have nameFree : '=' ∉ name := fun own => absurd (inside _ own) (by decide)
  obtain ⟨same, _, _⟩ := (List.append_cons_inj_of_notMem nameFree unsigned).mp whole
  have none : gap = [] := by
    rw [List.eq_nil_iff_forall_not_mem]
    intro c own
    have plain := (isPlain_of_isFieldChar (inside c (by simp [same, own]))).1
    have space := blank c own
    simp [isPlain, isBlank, space] at plain
  simpa [none] using same

/-- A text up to its mark, if neither the mark nor a backslash is in it. -/
theorem escapedBody_plain {mark : Char} (apart : mark ≠ '\\')
    (plain : ∀ c ∈ body, c ≠ mark ∧ c ≠ '\\') (rest : List Char) :
    escapedBody? mark (body ++ mark :: rest) = some (body, rest) := by
  induction body with
  | nil => simp [escapedBody?, apart]
  | cons c body ih =>
    obtain ⟨⟨differs, unescaped⟩, others⟩ := List.forall_mem_cons.mp plain
    simp [escapedBody?, differs, unescaped, ih others]

section Reading

variable {name : List Char}

/-- The text of a comparison with a regular expression. -/
def regexText (name body : List Char) : List Char :=
  name ++ '=' :: '/' :: (body ++ ['/'])

theorem IsFieldName.inside (isName : IsFieldName name) : ∀ c ∈ name, isFieldChar c = true := by
  obtain ⟨first, others, rfl, starts, inside⟩ := isName
  exact List.forall_mem_cons.mpr ⟨by simp [isFieldChar, starts], inside⟩

variable (isName : IsFieldName name) (plain : ∀ c ∈ body, isPlain c = true)
include isName plain

/-- The text has no white space, quotes or parentheses. -/
theorem solid_regexText :
    ∀ c ∈ regexText name body, isBlank c = false ∧ c ∉ ['(', ')', '"', '\''] := by
  have each (c : Char) (plain : isPlain c = true) :
      isBlank c = false ∧ c ∉ ['(', ')', '"', '\''] := by
    simp only [isPlain, Bool.not_eq_true', Bool.or_eq_false_iff] at plain
    refine ⟨plain.1, fun special => ?_⟩
    have other : ∀ c ∈ ['(', ')', '"', '\''],
        ['/', '\\', '"', '\'', '(', ')', '=', '<', '>'].contains c = true :=
      List.all_eq_true.mp rfl
    rw [other c special] at plain
    exact absurd plain.2 (by simp)
  intro c member
  simp only [regexText, List.mem_append, List.mem_cons, List.not_mem_nil, or_false] at member
  rcases member with own | rfl | rfl | own | rfl
  · exact each c (isPlain_of_isFieldChar (isName.inside c own)).1
  · decide
  · decide
  · exact each c (plain c own)
  · decide

/-- A field name, the sign and a text between slashes are a comparison. -/
theorem comparison_regex :
    dialect.comparison? (regexText name body) =
      .ok (some ([.leaf (.comparison { name := String.ofList name } .regex
        (.text (String.ofList body)) {})], [])) := by
  have field : dialect.field (regexText name body) =
      some (name, '=' :: '/' :: (body ++ ['/'])) := by
    obtain ⟨first, others, rfl, starts, inside⟩ := isName
    have ends : ∀ c ∈ ('=' :: '/' :: (body ++ ['/'])).head?, isFieldChar c = false := by
      simp only [List.head?_cons, Option.mem_def, Option.some.injEq, forall_eq']
      decide
    exact name_append starts inside ends
  have head : dialect.head? (regexText name body) =
      some ⟨name, ['='], '/' :: (body ++ ['/'])⟩ := by
    rw [Dialect.head?, field]
    rfl
  have unescaped : ∀ c ∈ body, c ≠ '/' ∧ c ≠ '\\' := by
    intro c own
    have known := plain c own
    constructor
    · rintro rfl
      contradiction
    · rintro rfl
      contradiction
  have literal : dialect.scalar false ('/' :: (body ++ ['/'])) =
      .ok (some (⟨.text (String.ofList body), true⟩, [])) := by
    have read : escapedBody? '/' (body ++ ['/']) = some (body, []) :=
      escapedBody_plain (by decide) unescaped []
    have same : replaceChars ['\\', '/'] ['/'] body = body :=
      replaceFrom_of_not_mem fun own => (unescaped _ own).2 rfl
    have slashed : slashed? ('/' :: (body ++ ['/'])) = some (body, []) := by
      simp [slashed?, quoted?, read]
    have slashes : dialect.slashes = true := rfl
    simp [Dialect.scalar, Dialect.literal?, Dialect.regexLiteral?, slashes, slashed,
      Dialect.slashedText, same]
  have unquoted : trimChar '"' (String.ofList name) = String.ofList name := by
    rw [trimChar, String.toList_ofList, trimBy_of_forall]
    intro c own
    have known := (isPlain_of_isFieldChar (isName.inside c own)).1
    rw [beq_eq_false_iff_ne]
    rintro rfl
    contradiction
  rw [Dialect.comparison?, head]
  simp only [literal]
  rw [← unquoted]
  rfl

/-- The whole text is that comparison. -/
theorem tokenize_regex :
    dialect.tokenize (String.ofList (regexText name body)) =
      .ok [.leaf (.comparison { name := String.ofList name } .regex
        (.text (String.ofList body)) {})] := by
  have solid := solid_regexText isName plain
  have unconnected : dialect.connective? (regexText name body) = none := by
    rw [Option.eq_none_iff_forall_ne_some]
    rintro ⟨token, rest⟩ found
    obtain ⟨_, taken, split, unsigned, ended⟩ := connective_some found
    cases rest with
    | nil =>
      have sign : '=' ∈ taken := by
        rw [← List.append_nil taken, ← split]
        simp [regexText]
      exact unsigned (List.mem_map_of_mem sign)
    | cons c rest =>
      obtain ⟨blank, special⟩ := solid c (by rw [split]; simp)
      rcases ended c rfl with space | rfl
      · simp [isBlank, space] at blank
      · simp at special
  have compared := comparison_regex isName plain
  obtain ⟨first, others, written⟩ : ∃ first others, regexText name body = first :: others := by
    obtain ⟨first, others, rfl, _⟩ := isName
    exact ⟨first, _, rfl⟩
  obtain ⟨blank, special⟩ := solid first (by rw [written]; simp)
  have visible : isGap first = false := by
    simp only [isBlank, isSpace, Bool.or_eq_false_iff] at blank
    simp_all
  rw [written] at unconnected compared
  have stepped : dialect.step (first :: others) = .ok ([.leaf (.comparison
      { name := String.ofList name } .regex (.text (String.ofList body)) {})], []) := by
    rw [Dialect.step]
    · simp only [unconnected, compared]
      rfl
    · rintro behind same
      simp [(List.cons.inj same).1] at special
    · rintro behind same
      simp [(List.cons.inj same).1] at special
  have whole := Dialect.tokensFrom_step visible stepped (by simp) Dialect.tokensFrom_nil
  rw [Dialect.tokenize, String.toList_ofList, written, whole]
  rfl

end Reading

/-- A filter without signs has no comparisons. -/
theorem tokenize_free {text : String} (free : ∀ c ∈ text.toList, c ∉ signs)
    (read : dialect.tokenize text = .ok tokens) :
    ∀ token ∈ tokens, token.leaf?.bind Leaf.fieldName? = none := by
  rw [Dialect.tokenize] at read
  cases walked : dialect.tokensFrom text.toList with
  | error stop => simp [walked] at read
  | ok =>
    have implicit : dialect.implicitAnd = true := rfl
    simp only [walked, implicit, ↓reduceIte, Except.ok.injEq] at read
    intro token member
    rcases Token.mem_insertImplicitAnds (read ▸ member) with own | rfl
    · exact tokensFrom_free free walked token own
    · rfl

theorem find_of_unsigned (listed : selector ∈ selectors) (unsigned : '=' ∉ text) :
    selector.find? text = none := by
  refine Option.eq_none_iff_forall_ne_some.mpr fun found first => ?_
  obtain ⟨matched, later, split, _, hit, _⟩ := find?_spec first
  obtain ⟨gap, taken, _, rest⟩ := mem_ends_selector listed (mem_ends_of_hitAt hit).1
  change matched ++ found.after = _ at rest
  apply unsigned
  rw [split, rest]
  simp

section Extraction

variable {name : List Char}

theorem unsigned_tail (plain : ∀ c ∈ body, isPlain c = true) : '=' ∉ '/' :: (body ++ ['/']) := by
  intro member
  have own : '=' ∈ body := by simpa using member
  exact absurd (plain _ own) (by decide)

/-- Where the field name does not end like the selector, the whole text is filter. -/
theorem extract_regexText (isName : IsFieldName name) (plain : ∀ c ∈ body, isPlain c = true)
    (apart : ¬ kind <:+ name) :
    extract selectors (String.ofList (regexText name body)) =
      ([], String.ofList (regexText name body)) := by
  have none (selector : Selector) (listed : selector ∈ selectors) :
      selector.find? (regexText name body) = none := by
    refine Option.eq_none_iff_forall_ne_some.mpr fun found first => ?_
    obtain ⟨matched, later, split, _, hit, _⟩ := find?_spec first
    exact apart ⟨found.before,
      (place_of_hit listed isName.inside (unsigned_tail plain) split hit).symm⟩
  have cleaned : clean (regexText name body) = regexText name body := by
    refine clean_of_solid fun c own => ?_
    obtain ⟨blank, special⟩ := solid_regexText isName plain c own
    exact ⟨blank, by rintro rfl; simp at special⟩
  rw [extract_of_find_none (by simpa using none), String.toList_ofList, cleaned]

/-- Where it does, no sign of comparison is left. -/
theorem extract_unsigned (isName : IsFieldName name) (plain : ∀ c ∈ body, isPlain c = true)
    (ends : kind <:+ name) :
    ∀ c ∈ (extract selectors (String.ofList (regexText name body))).2.toList,
      c ∉ signs := by
  obtain ⟨stem, rfl⟩ := ends
  have inside := isName.inside
  obtain ⟨selector, single⟩ : ∃ selector, selectors = [selector] := ⟨_, rfl⟩
  have listed : selector ∈ selectors := by simp [single]
  have written : regexText (stem ++ kind) body =
      stem ++ (kind ++ '=' :: '/' :: (body ++ ['/'])) := by
    simp [regexText]
  obtain ⟨later, taken, hit, rest⟩ := exists_hit_selector listed stem.getLast? (body ++ ['/'])
  have stemPlain : ∀ c ∈ stem, isPlain c = true := fun c own =>
    (isPlain_of_isFieldChar (inside c (List.mem_append_left _ own))).1
  have outside : Quoting.outside.after stem = .outside := by
    refine Quoting.after_unquoted fun c own => ?_
    have known := stemPlain c own
    constructor
    · rintro rfl
      contradiction
    · rintro rfl
      contradiction
  have first : selector.find? (regexText (stem ++ kind) body) =
      some ⟨stem, later.groups, later.rest⟩ := by
    rw [written]
    refine find?_of_hit hit outside fun early c late split => ?_
    refine Option.eq_none_iff_forall_ne_some.mpr fun other found => ?_
    have place : stem ++ kind = early ++ kind :=
      place_of_hit listed inside (unsigned_tail plain) (by simp [split]) found
    have length := congrArg List.length (split.symm.trans (List.append_cancel_right place))
    simp at length
  have left : ∀ c ∈ stem ++ ' ' :: later.rest, c ∉ signs := by
    have each (c : Char) (known : isPlain c = true) : c ∉ signs := by
      intro sign
      have other : ∀ c ∈ signs, isPlain c = false := all_decide_iff.mp (by decide)
      simp [other c sign] at known
    intro c own
    rcases List.mem_append.mp own with early | late
    · exact each c (stemPlain c early)
    · rcases List.mem_cons.mp late with rfl | behind
      · decide
      · have tail : c ∈ '/' :: (body ++ ['/']) := rest ▸ List.mem_append_right _ behind
        simp only [List.mem_cons, List.mem_append, List.not_mem_nil, or_false] at tail
        rcases tail with rfl | inBody | rfl
        · decide
        · exact each c (plain c inBody)
        · decide
  have again : selector.find? (stem ++ ' ' :: later.rest) = none :=
    find_of_unsigned listed fun own => left _ own (by decide)
  have removed : (removeAll selectors (regexText (stem ++ kind) body)).2 =
      stem ++ ' ' :: later.rest := by
    rw [single]
    exact remove_snd_of_find first again
  rw [extract_snd, String.toList_ofList, String.toList_ofList, removed]
  intro c own
  rcases mem_clean own with member | rfl
  · exact left c member
  · decide

end Extraction

/-- What reading a query takes: its filter without selectors, and the stages behind it. -/
theorem read_ok {repository : Repository} {text : String} {info : Option Meta} {query : Query}
    (made : read repository text info = .ok query) :
    ∃ tokens, dialect.tokenize (extract selectors (Pipeline.split text).1).2 = .ok tokens ∧
      Query.ofTokens repository tokens (extract selectors (Pipeline.split text).1).1
        (Meta.initial.merge? info) { notSupported := (Pipeline.split text).2 } = .ok query := by
  cases read : dialect.tokenize (extract selectors (Pipeline.split text).1).2 with
  | error stop =>
    simp [LogScale.read, Dialect.read, read, Except.mapError, bind, Except.bind] at made
  | ok tokens =>
    refine ⟨tokens, rfl, ?_⟩
    simpa [LogScale.read, Dialect.read, read, Except.mapError, bind, Except.bind] using made

/-- The characters in front of a bar in the expression do not end the filter. -/
theorem carried_regexText {name : List Char} (isName : IsFieldName name)
    (plain : ∀ c ∈ body, isPlain c = true) :
    ∀ c ∈ regexText name body, c ≠ '|' → Pipeline.isCarried c = true := by
  intro c own other
  have special := (solid_regexText isName plain c own).2
  simp only [List.mem_cons, List.not_mem_nil, or_false, not_or] at special
  simp [Pipeline.isCarried, special, other]

/-- A comparison of a field with a plain regular expression is read as exactly that, with
nothing behind it, if and only if the expression has no bar and the field name does not end
like the selector of the kind of event. -/
theorem read_regex_iff (repository : Repository) (info : Option Meta) (name body : String)
    (isName : IsFieldName name.toList) (plain : ∀ c ∈ body.toList, isPlain c = true) :
    (∃ query, read repository (name ++ "=/" ++ body ++ "/") info = .ok query ∧
      query.IsComparison name .regex (.text body)) ↔
    '|' ∉ body.toList ∧ ¬ "#event_simpleName".toList <:+ name.toList := by
  have text : name ++ "=/" ++ body ++ "/" = String.ofList (regexText name.toList body.toList) := by
    rw [← String.toList_inj]
    simp [regexText]
  have carried := carried_regexText isName plain
  have whole (noBar : '|' ∉ body.toList) :
      Pipeline.split (String.ofList (regexText name.toList body.toList)) =
        (String.ofList (regexText name.toList body.toList), []) := by
    have none : '|' ∉ regexText name.toList body.toList := by
      have noName : '|' ∉ name.toList := fun own =>
        (isPlain_of_isFieldChar (isName.inside _ own)).2 rfl
      simp [regexText, noBar, noName]
    rw [Pipeline.split_of_unbarred (by rwa [String.toList_ofList]), trim, String.toList_ofList,
      trimChars, trimBy_of_forall fun c own => (solid_regexText isName plain c own).1]
  rw [text]
  constructor
  · rintro ⟨query, made, comparison⟩
    obtain ⟨tokens, read, built⟩ := read_ok made
    have noBar : '|' ∉ body.toList := by
      intro bar
      obtain ⟨early, late, split, first⟩ := List.eq_append_cons_of_mem bar
      have written : regexText name.toList body.toList =
          (name.toList ++ '=' :: '/' :: early) ++ '|' :: (late ++ ['/']) := by
        simp [regexText, split]
      have stages := Pipeline.split_at_bar (String.toList_ofList.trans written) fun c own => by
        refine carried c (written ▸ List.mem_append_left _ own) ?_
        rintro rfl
        simp only [List.mem_append, List.mem_cons, first, Char.reduceEq, or_false] at own
        exact (isPlain_of_isFieldChar (isName.inside _ own)).2 rfl
      obtain ⟨_, _, _, _, _, pipeline⟩ := Query.ofTokens_ok built
      rw [comparison.1] at pipeline
      exact stages (congrArg Pipeline.notSupported pipeline).symm
    refine ⟨noBar, fun ends => ?_⟩
    obtain ⟨token, member, compared⟩ := comparison.exists_token built
    rw [whole noBar] at read
    have none := tokenize_free (extract_unsigned isName plain ends) read token member
    simp [none] at compared
  · rintro ⟨noBar, apart⟩
    have extracted := extract_regexText isName plain apart
    obtain ⟨query, made, pipeline, known, named, tree⟩ :=
      Query.ofTokens_comparison repository { name := name } .regex (.text body)
        (Meta.initial.merge? info) {}
    refine ⟨query, ?_, pipeline, known, named, tree⟩
    have read := tokenize_regex isName plain
    rw [String.ofList_toList, String.ofList_toList] at read
    simp only [LogScale.read, whole noBar, extracted, Dialect.read, read]
    exact made

/-- An expression without a bar is read. -/
theorem read_regex_iff_plain :
    IsFieldName "user".toList ∧ (∀ c ∈ "ab+c?".toList, isPlain c = true) ∧
    ∃ query, read (.ofRecords "logscale" []) "user=/ab+c?/" none = .ok query ∧
      query.IsComparison "user" .regex (.text "ab+c?") := by
  have isName : IsFieldName "user".toList :=
    ⟨'u', ['s', 'e', 'r'], rfl, rfl, List.all_eq_true.mp rfl⟩
  have plain : ∀ c ∈ "ab+c?".toList, isPlain c = true := List.all_eq_true.mp (by decide)
  exact ⟨isName, plain, (read_regex_iff _ none "user" "ab+c?" isName plain).mpr (by decide)⟩

/-- A bar between two alternatives ends the filter: what stands in front of it is compared as
plain text, and the rest is taken for a stage of the pipeline. A field whose name ends like the
selector is taken out together with its expression. -/
theorem regex_cut_short :
    (read (.ofRecords "logscale" []) "user=/a|b/" none).toOption.map (fun query =>
      (query.tree.leaves.map Leaf.describe, query.pipeline.notSupported)) =
        some (["user eq /a"], ["b/"]) ∧
    (read (.ofRecords "logscale" []) "x#event_simpleName=/ab/" none).toOption.map (fun query =>
      (query.tree.leaves.map Leaf.describe, query.pipeline.notSupported)) =
        some (["keywords x"], []) := by
  decide +kernel

end LogScale

end Detection

import Detection.Proofs.ConditionTokens
import Detection.Proofs.PlatformCondition
import Detection.Proofs.StrictMapping
import Mathlib.Data.List.DropRight

/-!
# Conditions in finished queries

A condition is laid out between what stands before it and the functions behind it, and then blanks
are trimmed from both ends of the whole. So the condition stands in the finished query as it was
written, unless it has a blank at an end where nothing visible stands beside it.

In front this needs a blank name of a field. Behind, it happens in the query language of Lucene
only, in which values are written without quotes: the last blank of a value is lost there, and the
backslash that escapes it is left.
-/
namespace Detection

open Text

variable {form : QueryForm} {body : List Char} {registry : Registry} {strict : Bool}
  {language : TargetLanguage}

/-- Whether the first character of a text is there and not blank. -/
def beginsVisibly (text : String) : Bool :=
  text.toList.head?.any fun c => !isBlank c

/-- Whether a text has a character that is not blank. -/
def hasVisible (text : String) : Bool :=
  text.toList.any fun c => !isBlank c

/-! ## What trimming keeps -/

namespace Text

/-- Blanks are dropped only from what stands in front of a text, if that is visible or the text
begins visibly. -/
theorem dropWhile_front {front : List Char} (back : List Char)
    (kept : body.head?.any (!isBlank ·) = true ∨ front.any (!isBlank ·) = true) :
    (front ++ (body ++ back)).dropWhile isBlank = front.dropWhile isBlank ++ (body ++ back) := by
  rw [List.dropWhile_append]
  split
  · next blank =>
    have none : front.dropWhile isBlank = [] := List.isEmpty_iff.mp blank
    have begins : body.head?.any (!isBlank ·) = true := by
      refine kept.resolve_right ?_
      simpa using List.dropWhile_eq_nil_iff.mp none
    cases body with
    | nil => cases begins
    | cons c =>
      have visible : isBlank c = false := by simpa using begins
      rw [none, List.nil_append, List.cons_append, List.dropWhile_cons_of_neg (by simp [visible])]
  · rfl

/-- A text between two others is kept, if on each side the other is visible or its own end is. -/
theorem infix_trimChars {front back : List Char}
    (begins : body.head?.any (!isBlank ·) = true ∨ front.any (!isBlank ·) = true)
    (ends : body.getLast?.any (!isBlank ·) = true ∨ back.any (!isBlank ·) = true) :
    body <:+: trimChars (front ++ body ++ back) := by
  have behind : (back.reverse ++ (body.reverse ++ (front.dropWhile isBlank).reverse)).dropWhile
      isBlank = back.reverse.dropWhile isBlank ++
        (body.reverse ++ (front.dropWhile isBlank).reverse) :=
    dropWhile_front _ (by simpa using ends)
  have reversed : (front.dropWhile isBlank ++ (body ++ back)).reverse =
      back.reverse ++ (body.reverse ++ (front.dropWhile isBlank).reverse) := by
    simp
  rw [trimChars, trimBy, List.append_assoc, dropWhile_front back begins, reversed, behind]
  exact ⟨front.dropWhile isBlank, (back.reverse.dropWhile isBlank).reverse, by simp⟩

/-- A text that is part of what trimming leaves of it has no blank at its ends. -/
theorem visible_of_infix_trimChars (some : body ≠ []) (inside : body <:+: trimChars body) :
    body.head?.any (!isBlank ·) = true ∧ body.getLast?.any (!isBlank ·) = true := by
  have ending : trimChars body <+: body.dropWhile isBlank := List.rdropWhile_prefix isBlank _
  have front : body.dropWhile isBlank = body :=
    (List.dropWhile_suffix isBlank).eq_of_length_le
      (inside.length_le.trans ending.length_le)
  have back : body.rdropWhile isBlank = body := by
    refine (List.rdropWhile_prefix isBlank _).eq_of_length_le ?_
    have length := inside.length_le
    rwa [trimChars, trimBy, front] at length
  obtain ⟨c, others, rfl⟩ := List.exists_cons_of_ne_nil some
  constructor
  · simpa using List.dropWhile_eq_self_iff.mp front
  · simpa [List.getLast?_eq_some_getLast some] using List.rdropWhile_eq_self_iff.mp back some

end Text

/-! ## How conditions end -/

section

variable {shown : String → Prop} (ofEnd : OfEnd shown)
include ofEnd

/-- Joined pieces end like the last one. -/
theorem OfEnd.join (separator : String) {pieces : List String} (some : pieces ≠ [])
    (each : ∀ piece ∈ pieces, shown piece) : shown (join separator pieces) := by
  induction pieces with
  | nil => contradiction
  | cons piece others ih =>
    rw [List.forall_mem_cons] at each
    cases others with
    | nil => exact each.1
    | cons =>
      exact ofEnd.behind _ (ih (List.cons_ne_nil _ _) each.2)

/-- An operand ends with a clause or a parenthesis. -/
theorem Operand.text_shown {wording : Wording} {operand : Operand}
    (clauses : ∀ leaf ∈ operand.leaves, shown (wording.clause leaf)) :
    shown (operand.text wording) := by
  induction operand with
  | clause leaf =>
    rw [text]
    exact clauses leaf (by simp [leaves])
  | negated operand ih =>
    rw [text]
    exact ofEnd.behind _ (ih (by simpa [leaves] using clauses))
  | enclosed connective first others _ _ =>
    rw [text]
    exact ofEnd.closed _ (by decide)

theorem Infix.text_shown {wording : Wording} {condition : Infix}
    (clauses : ∀ leaf ∈ condition.leaves, shown (wording.clause leaf)) :
    shown (condition.text wording) := by
  refine ofEnd.join _ (by simp [operands]) ?_
  intro piece listed
  obtain ⟨operand, own, rfl⟩ := List.mem_map.mp listed
  exact Operand.text_shown ofEnd fun leaf inside =>
    clauses leaf (List.mem_flatMap.mpr ⟨operand, own, inside⟩)

end

/-- The condition of a compiled query ends visibly, if the clauses of its leaves do. -/
theorem QueryForm.condition_endsVisibly {mapping : SourceMapping} {tokens : List Token}
    {tree : Tree} (compiled : compile tokens = .ok tree) (leafy : tree.leaves ≠ [])
    (clauses : ∀ leaf ∈ tree.leaves, Yields (endsVisibly · = true) (form.leaf mapping leaf)) :
    Yields (endsVisibly · = true) (form.condition mapping tree) := by
  obtain ⟨scope, rfl, ⟨rfl, _⟩ | ⟨inner, rfl, shape, _⟩⟩ := compile_scope compiled
  · exact absurd rfl leafy
  · rw [Tree.leaves_ofScope] at clauses
    rw [condition_ofScope]
    intro text written
    have texts : ∀ leaf ∈ inner.leaves, form.leaf mapping leaf ≠ .ok "" := by
      intro leaf own empty
      cases clauses leaf own "" empty
    obtain ⟨_, condition, writes, _⟩ := written_of_inner shape texts text written
    rw [← writes.text]
    refine Infix.text_shown OfEnd.endsVisibly fun leaf own => ?_
    rw [writes.leaves] at own
    exact clauses leaf own _ (writes.clauses leaf own)

/-! ## The layout -/

section

variable (lead body functions rest : List Char)

theorem fillHoles_leadHole : fillHoles lead body functions 0 (leadHole ++ rest) =
    lead ++ fillHoles lead body functions 0 rest := by
  rfl

theorem fillHoles_bodyHole : fillHoles lead body functions 0 (bodyHole ++ rest) =
    body ++ fillHoles lead body functions 0 rest := by
  rfl

theorem fillHoles_functionsHole : fillHoles lead body functions 0 (functionsHole ++ rest) =
    functions ++ fillHoles lead body functions 0 rest := by
  rfl

/-- A text without braces has no holes. -/
theorem fillHoles_plain {joint : List Char} (unbraced : '\x7b' ∉ joint) :
    fillHoles lead body functions 0 (joint ++ rest) =
      joint ++ fillHoles lead body functions 0 rest := by
  induction joint with
  | nil => rfl
  | cons c others ih =>
    obtain ⟨differs, unbraced⟩ := not_or.mp (mt List.mem_cons.mpr unbraced)
    have other (name : List Char) :
        ('\x7b' :: name).isPrefixOf (c :: (others ++ rest)) = false := by
      rw [List.isPrefixOf_cons_cons, beq_eq_false_iff_ne.mpr differs, Bool.false_and]
    rw [List.cons_append, fillHoles, ih unbraced]
    simp only [other, show leadHole = '\x7b' :: "prefix\x7d".toList from rfl,
      show bodyHole = '\x7b' :: "query\x7d".toList from rfl,
      show functionsHole = '\x7b' :: "functions\x7d".toList from rfl]
    rfl

theorem fillHoles_behind : fillHoles lead body functions 0 (bodyHole ++ (' ' :: functionsHole)) =
    body ++ (' ' :: functions) := by
  have blank : fillHoles lead body functions 0 ([' '] ++ functionsHole) =
      [' '] ++ fillHoles lead body functions 0 (functionsHole ++ []) :=
    fillHoles_plain lead body functions functionsHole (by decide)
  rw [fillHoles_functionsHole] at blank
  rw [fillHoles_bodyHole]
  exact congrArg (body ++ ·) (blank.trans (by simp [fillHoles]))

end

namespace TargetLanguage

/-- What ties a condition to the part before it. -/
def joint : TargetLanguage → String
  | splunk | crowdStrike => " "
  | axon => " AND "
  | xql => " | filter "
  | hunters => " WHERE "
  | openSearch | openSearchMonitor | sigma => ""

/-- All that stands in front of a condition. -/
def front (language : TargetLanguage) (lead : String) : String :=
  if lead = "" then "" else lead ++ language.joint

/-- Whether queries are written in the query language of Lucene. -/
def isLucene : TargetLanguage → Bool
  | openSearch | openSearchMonitor => true
  | xql | crowdStrike | hunters | axon | sigma | splunk => false

/-- Whether a condition has visible ends, or something visible in front of it. Behind it only
conditions of Lucene are looked at. -/
def keeps (language : TargetLanguage) (lead body : String) : Bool :=
  (beginsVisibly body || hasVisible (language.front lead)) &&
    (!language.isLucene || endsVisibly body)

end TargetLanguage

/-- The functions of a query as a platform writes them. -/
def QueryForm.functionsText (form : QueryForm) (pipeline : Pipeline) : String :=
  (form.functions?.map (· pipeline.functions)).getD ""

/-- The query around a condition, without a document around it and without the block behind it. -/
def QueryForm.finished (form : QueryForm) (query : Query) (info : Meta) (mapping : SourceMapping)
    (body : String) : String :=
  layOut form.layout (form.lead mapping info) body (form.functionsText query.pipeline)

/-- A layout with the condition in front of the functions, and something in front of both. -/
theorem layOut_eq (layout : String) {joint lead body : String}
    (unled : dropLead layout.toList = bodyHole ++ (' ' :: functionsHole))
    (led : lead ≠ "" →
      layout.toList = leadHole ++ (joint.toList ++ (bodyHole ++ (' ' :: functionsHole))))
    (unbraced : '\x7b' ∉ joint.toList) (some : body ≠ "") (functions : String) :
    layOut layout lead body functions =
      trim ((if lead = "" then "" else lead ++ joint) ++ body ++ (" " ++ functions)) := by
  rw [layOut, trim]
  simp only [beq_iff_eq, some, ↓reduceIte]
  split
  · rw [unled, fillHoles_behind]
    simp
  · next visible =>
    rw [led visible, fillHoles_leadHole, fillHoles_plain _ _ _ _ unbraced, fillHoles_behind]
    simp

/-- In each language a condition stands behind the part before it and in front of the functions. -/
theorem Registry.finished_eq (known : registry.form? strict language = some form) (query : Query)
    (info : Meta) (mapping : SourceMapping) {body : String} (some : body ≠ "") :
    form.finished query info mapping body =
      trim (language.front (form.lead mapping info) ++ body ++
        (" " ++ form.functionsText query.pipeline)) := by
  cases language with
  | sigma => cases known
  | openSearch | openSearchMonitor =>
    cases known
    exact layOut_eq "\x7bquery\x7d \x7bfunctions\x7d" (by decide +kernel) (absurd rfl) (by decide)
      some _
  | splunk | crowdStrike =>
    cases known
    exact layOut_eq defaultLayout (by decide +kernel) (fun _ => by decide +kernel) (by decide)
      some _
  | xql =>
    cases known
    exact layOut_eq "\x7bprefix\x7d | filter \x7bquery\x7d \x7bfunctions\x7d" (by decide +kernel)
      (fun _ => by decide +kernel) (by decide) some _
  | hunters =>
    cases known
    exact layOut_eq "\x7bprefix\x7d WHERE \x7bquery\x7d \x7bfunctions\x7d" (by decide +kernel)
      (fun _ => by decide +kernel) (by decide) some _
  | axon =>
    cases known
    exact layOut_eq "\x7bprefix\x7d AND \x7bquery\x7d \x7bfunctions\x7d" (by decide +kernel)
      (fun _ => by decide +kernel) (by decide) some _

/-- In Lucene nothing stands in front of a condition, and no function behind it. -/
theorem Registry.form?_lucene (known : registry.form? strict language = some form)
    (lucene : language.isLucene = true) (info : Meta) (mapping : SourceMapping) :
    language.front (form.lead mapping info) = "" ∧ form.functions? = none := by
  cases language with
  | openSearch | openSearchMonitor =>
    cases known
    exact ⟨rfl, rfl⟩
  | xql | crowdStrike | hunters | axon | splunk | sigma => cases lucene

/-- Outside of Lucene the clauses of leaves end visibly, if numbers do. -/
theorem Registry.leaf_endsVisibly (known : registry.form? strict language = some form)
    (other : language.isLucene = false) (mapping : SourceMapping) {leaf : Leaf}
    (number : leaf.value.unwrapped.NumberShown (endsVisibly · = true)) :
    Yields (endsVisibly · = true) (form.leaf mapping leaf) := by
  have each (platform : Platform) (differs : platform ≠ .openSearch) (repository : Repository) :
      Yields (endsVisibly · = true) ((platform.form repository strict).leaf mapping leaf) :=
    platform.leaf_yields OfEnd.endsVisibly differs repository strict mapping leaf number
  cases language with
  | openSearch | openSearchMonitor => cases other
  | sigma => cases known
  | xql =>
    cases known
    exact each .xql (by decide) _
  | crowdStrike =>
    cases known
    exact each .crowdStrike (by decide) _
  | hunters =>
    cases known
    exact each .hunters (by decide) _
  | axon =>
    cases known
    exact each .axon (by decide) _
  | splunk =>
    cases known
    exact each .splunk (by decide) _

/-- The condition of a compiled query stands in the finished query as it was written, if its ends
are visible where nothing visible stands beside them, and in a query without functions only then. -/
theorem Registry.condition_kept_iff (registry : Registry) (language : TargetLanguage)
    (strict : Bool) (form : QueryForm) (known : registry.form? strict language = some form)
    (query : Query) (tokens : List Token) (compiled : compile tokens = .ok query.tree)
    (leafy : query.tree.leaves ≠ [])
    (numbers : language.isLucene = false → ∀ leaf ∈ query.tree.leaves,
      leaf.value.unwrapped.NumberShown (endsVisibly · = true))
    (info : Meta) (mapping : SourceMapping) (body : String)
    (written : form.condition mapping query.tree = .ok body) :
    (∃ unsupported, form.renderFor query info mapping = .ok {
      mapping := mapping.id
      query := form.envelope (form.finished query info mapping body) mapping info ++
        annex unsupported form.commentOpening form.commentClosing }) ∧
    (body = "" ∨ language.keeps (form.lead mapping info) body = true →
      body.toList <:+: (form.finished query info mapping body).toList) ∧
    (form.functionsText query.pipeline = "" →
      body.toList <:+: (form.finished query info mapping body).toList →
      body = "" ∨ language.keeps (form.lead mapping info) body = true) := by
  refine ⟨⟨_, by rw [QueryForm.renderFor, written]; rfl⟩, ?_⟩
  by_cases empty : body = ""
  · exact ⟨fun _ => empty ▸ List.nil_infix, fun _ _ => .inl empty⟩
  have ends : language.isLucene = false → endsVisibly body = true := fun other =>
    QueryForm.condition_endsVisibly compiled leafy (fun leaf own =>
      leaf_endsVisibly known other mapping (numbers other leaf own)) body written
  rw [finished_eq known query info mapping empty, trim, String.toList_ofList, String.toList_append,
    String.toList_append]
  constructor
  · intro kept
    have visible := kept.resolve_left empty
    rw [TargetLanguage.keeps, Bool.and_eq_true, Bool.or_eq_true, Bool.or_eq_true,
      Bool.not_eq_true'] at visible
    exact infix_trimChars visible.1 (.inl (visible.2.elim ends id))
  · intro bare inside
    refine .inr ?_
    by_cases led : hasVisible (language.front (form.lead mapping info)) = true
    · have other : language.isLucene = false := by
        by_contra lucene
        rw [(form?_lucene known (by simpa using lucene) info mapping).1] at led
        cases led
      simp [TargetLanguage.keeps, led, other]
    · have gap : ∀ c ∈ (" " ++ "").toList, isBlank c = true := by
        simp [show isBlank ' ' = true from rfl]
      rw [bare, trimChars, trimBy_between _ (by simpa [hasVisible] using led) gap] at inside
      obtain ⟨front, back⟩ := visible_of_infix_trimChars (by simpa using empty) inside
      have begins : beginsVisibly body = true := front
      have closes : endsVisibly body = true := back
      simp [TargetLanguage.keeps, begins, closes]

/-- A search for a text with a blank at its end, which stands in front of a star in Lucene, and a
number at the end of a Splunk search with a function. -/
theorem Registry.condition_kept_iff_ends :
    let lucene := Lucene.form (.ofRecords "opensearch" []) false
    let splunk := Spl.form (.ofRecords "splunk" []) false
    let tree (operator : Operator) (value : Value) : Tree :=
      .group .single [.leaf (.comparison { name := "f" } operator value {})]
    let searched : Query := { tree := tree .contains (.text "a "), info := none }
    let counted : Query := { tree := tree .gt (.number "5"), info := none,
                             pipeline := { functions := [{ name := "dedup", raw := "dedup" }] } }
    lucene.condition lucene.repository.default searched.tree = .ok "f:*a\\ *" ∧
    "f:*a\\ *".toList <:+:
      (lucene.finished searched .initial lucene.repository.default "f:*a\\ *").toList ∧
    splunk.condition splunk.repository.default counted.tree = .ok "f>5" ∧
    "f>5".toList <:+:
      (splunk.finished counted .initial splunk.repository.default "f>5").toList := by
  intro lucene splunk tree searched counted
  have numbers : ∀ leaf ∈ counted.tree.leaves,
      leaf.value.unwrapped.NumberShown (endsVisibly · = true) := by
    intro leaf own lexeme same
    obtain rfl : leaf = .comparison { name := "f" } .gt (.number "5") {} := by
      simpa [counted, tree] using own
    cases same
    decide +kernel
  have starred := (alike (.ofRecords "opensearch" [])).condition_kept_iff .openSearch false lucene
    rfl searched [.leaf (.comparison { name := "f" } .contains (.text "a ") {})] rfl
    (by simp [searched, tree]) (fun other => absurd other (by decide)) .initial
    lucene.repository.default "f:*a\\ *" rfl
  have ordered := (alike (.ofRecords "splunk" [])).condition_kept_iff .splunk false splunk rfl
    counted [.leaf (.comparison { name := "f" } .gt (.number "5") {})] rfl
    (by simp [counted, tree]) (fun _ => numbers) .initial splunk.repository.default "f>5" rfl
  exact ⟨rfl, starred.2.1 (.inr (by decide +kernel)), rfl, ordered.2.1 (.inr (by decide +kernel))⟩

/-- A text with a blank at its end, for which the end of a field is searched, loses the blank and
keeps the backslash in front of it. -/
theorem Registry.condition_loses_blank :
    let form := Lucene.form (.ofRecords "opensearch" []) false
    let leaf : Leaf := .comparison { name := "f" } .endsWith (.text "a ") {}
    let query : Query := { tree := .group .single [.leaf leaf], info := none }
    compile [.leaf leaf] = .ok query.tree ∧
    form.condition form.repository.default query.tree = .ok "f:*a\\ " ∧
    (form.renderFor query .initial form.repository.default).toOption.map Rendered.query =
      some "f:*a\\" ∧
    ¬ "f:*a\\ ".toList <:+: "f:*a\\".toList := by
  refine ⟨rfl, rfl, by decide +kernel, ?_⟩
  intro inside
  have longer := inside.length_le
  exact absurd longer (by decide +kernel)

end Detection

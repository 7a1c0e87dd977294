import Detection.Proofs.StrictMapping

/-!
# What could not be expressed, as a comment

Behind a rendered query stands a block that lists the functions which the platform does not
support, each behind the mark of a comment. On most platforms a comment goes up to the end of its
line, and a function is listed as it was written, with its line breaks. So the block is a comment
as a whole only if the functions have no further lines of their own, except for blank ones and
for those that are comments already.
-/
namespace Detection

open Text

/-- The lines of a text. -/
def Text.lines (text : String) : List (List Char) :=
  text.toList.splitOn '\n'

/-- A line that is blank, or that begins with the mark of a comment. -/
def IsCommentLine (mark : String) (line : List Char) : Prop :=
  (∃ c ∈ line, isBlank c = false) → mark.toList <+: line

instance (mark : String) (line : List Char) : Decidable (IsCommentLine mark line) :=
  decidable_of_iff ((line.all isBlank || mark.toList.isPrefixOf line) = true) <| by
    simp [IsCommentLine, or_iff_not_imp_left]

/-- A text all of whose lines are comments or blank. -/
def IsCommented (mark text : String) : Prop :=
  ∀ line ∈ lines text, IsCommentLine mark line

instance (mark text : String) : Decidable (IsCommented mark text) :=
  decidable_of_iff ((lines text).all (fun line => decide (IsCommentLine mark line)) = true) <| by
    simp [IsCommented]

/-! ## Lines of the block -/

theorem lines_ne_nil (text : String) : lines text ≠ [] :=
  List.splitOnP_ne_nil _ _

theorem lines_break (before after : String) :
    lines (before ++ "\n" ++ after) = lines before ++ lines after := by
  have split := List.splitOnP_append_cons (p := (· == '\n')) before.toList after.toList
    (beq_self_eq_true '\n')
  simpa [lines, List.splitOn] using split

/-- A text without line breaks in front of another belongs to the first line. -/
theorem lines_append {lead : String} (unbroken : '\n' ∉ lead.toList) (text : String) :
    lines (lead ++ text) = (lines text).modifyHead (lead.toList ++ ·) := by
  have joined (front : List Char) (unbroken : '\n' ∉ front) :
      (front ++ text.toList).splitOn '\n' = (lines text).modifyHead (front ++ ·) := by
    induction front with
    | nil =>
      obtain ⟨first, others, split⟩ := List.exists_cons_of_ne_nil (lines_ne_nil text)
      rw [split]
      exact split
    | cons c front ih =>
      obtain ⟨differs, rest⟩ := not_or.mp (mt List.mem_cons.mpr unbroken)
      have other : (c == '\n') = false := beq_eq_false_iff_ne.mpr (Ne.symm differs)
      have others := ih rest
      rw [List.splitOn] at others ⊢
      rw [List.cons_append, List.splitOnP_cons_eq_if_modifyHead, other, others,
        List.modifyHead_modifyHead]
      rfl
  rw [lines, String.toList_append]
  exact joined lead.toList unbroken

/-- A text behind the mark of a comment is a comment if its further lines are. -/
theorem isCommented_commentLine {mark : String} (unbroken : '\n' ∉ mark.toList) (text : String) :
    IsCommented mark (commentLine mark "" text) ↔
      ∀ line ∈ (lines text).tail, IsCommentLine mark line := by
  obtain ⟨first, others, split⟩ := List.exists_cons_of_ne_nil (lines_ne_nil text)
  have marked : lines (commentLine mark "" text) =
      ((mark ++ " ").toList ++ first) :: others := by
    have lead : '\n' ∉ (mark ++ " ").toList := by simpa using unbroken
    simpa [commentLine, split] using lines_append lead text
  have own : IsCommentLine mark ((mark ++ " ").toList ++ first) := by
    intro _
    rw [String.toList_append, List.append_assoc]
    exact List.prefix_append _ _
  rw [IsCommented, marked, split, List.tail_cons, List.forall_mem_cons]
  exact and_iff_right own

/-- A block of lines is a comment if its parts are. -/
theorem isCommented_break (mark before after : String) :
    IsCommented mark (before ++ "\n" ++ after) ↔
      IsCommented mark before ∧ IsCommented mark after := by
  rw [IsCommented, lines_break, List.forall_mem_append]
  rfl

theorem isCommented_empty (mark : String) : IsCommented mark "" := by
  intro line listed
  have none : line = [] := List.mem_singleton.mp listed
  rintro ⟨c, own, _⟩
  rw [none] at own
  cases own

/-- The block is a comment if and only if the further lines of what it lists are. -/
theorem isCommented_annex {mark : String} (unbroken : '\n' ∉ mark.toList) (items : List String) :
    IsCommented mark (annex items mark "") ↔
      ∀ item ∈ items, ∀ line ∈ (lines item).tail, IsCommentLine mark line := by
  have listed (head : String) (items : List String) :
      IsCommented mark (head ++
          String.join (items.map fun item => "\n" ++ commentLine mark "" item)) ↔
        IsCommented mark head ∧
          ∀ item ∈ items, ∀ line ∈ (lines item).tail, IsCommentLine mark line := by
    induction items generalizing head with
    | nil => simp
    | cons item others ih =>
      have next : head ++ String.join ((item :: others).map fun item =>
            "\n" ++ commentLine mark "" item) =
          (head ++ "\n" ++ commentLine mark "" item) ++
            String.join (others.map fun item => "\n" ++ commentLine mark "" item) := by
        simp [String.append_assoc]
      rw [next, ih, isCommented_break, isCommented_commentLine unbroken,
        List.forall_mem_cons, and_assoc]
  rw [annex]
  split
  · next none => simp [List.isEmpty_iff.mp none, isCommented_empty]
  · have heading (title : String) (single : lines title = [title.toList]) :
        IsCommented mark ("\n\n" ++ commentLine mark "" title) := by
      have broken : "\n\n" ++ commentLine mark "" title =
          "" ++ "\n" ++ ("" ++ "\n" ++ commentLine mark "" title) := by
        simp [← String.append_assoc]
      rw [broken, isCommented_break, isCommented_break, isCommented_commentLine unbroken, single]
      exact ⟨isCommented_empty mark, isCommented_empty mark, by simp⟩
    rw [listed]
    exact and_iff_right (heading _ (by decide +kernel))

/-! ## Queries and the block behind them -/

/-- A rendered query with a text behind it. -/
def Rendered.followedBy (rendered : Rendered) (text : String) : Rendered :=
  { rendered with query := rendered.query ++ text }

def Query.bare (query : Query) : Query :=
  { query with pipeline := {} }

/-- The functions that are listed where none is supported. -/
def Pipeline.listed (pipeline : Pipeline) : List String :=
  pipeline.notSupported ++ pipeline.functions.map (·.raw)

/-- Where no function is supported, a query is rendered like one without a pipeline, and the
functions are listed behind it. -/
theorem QueryForm.render_followedBy {form : QueryForm} (unsupported : form.functions? = none)
    (query : Query) :
    form.render query = (form.render query.bare).map (List.map (·.followedBy
      (annex query.pipeline.listed form.commentOpening form.commentClosing))) := by
  have each (info : Meta) (mapping : SourceMapping) : form.renderFor query info mapping =
      (form.renderFor query.bare info mapping).map (·.followedBy
        (annex query.pipeline.listed form.commentOpening form.commentClosing)) := by
    rw [renderFor, renderFor, Query.bare]
    cases form.condition mapping query.tree with
    | error => rfl
    | ok body =>
      simp [unsupported, Pipeline.listed, Rendered.followedBy, annex, pure, Except.pure, bind,
        Except.bind, Except.map]
  rw [render, funext (each (query.info.getD .initial))]
  exact mapM_map _ _ _

/-- A rule is written like that of a query without a pipeline, and the stages that are not
understood are listed behind it. -/
theorem Sigma.render_followedBy (naming : FieldNaming) (query : Query) :
    render naming query = (render naming query.bare).map (List.map (·.followedBy
      (annex query.pipeline.notSupported "#" ""))) := by
  rw [render, render]
  dsimp only [Query.bare]
  generalize (naming.repository.select (query.info.getD .initial).mappingIds).headD _ = mapping
  cases writeCondition naming mapping query.tree with
  | error => rfl
  | ok written =>
    simp only [bind, Except.bind]
    cases mapping.signature with
    | none => rfl
    | some signature =>
      dsimp only
      cases document (query.info.getD .initial) signature written.1 written.2 with
      | error => rfl
      | ok root => simp [pure, Except.pure, Except.map, Rendered.followedBy, annex]

namespace TargetLanguage

/-- The mark of comments that go up to the end of the line. -/
def lineComment? : TargetLanguage → Option String
  | xql | axon | openSearch | openSearchMonitor => some "//"
  | hunters => some "--"
  | sigma => some "#"
  | crowdStrike | splunk => none

/-- The functions of a pipeline that are listed behind a query in the language. A rule leaves out
those that are understood. -/
def listed (language : TargetLanguage) (pipeline : Pipeline) : List String :=
  if language = sigma then pipeline.notSupported else pipeline.listed

end TargetLanguage

namespace Registry

/-- Behind what a query without its pipeline is rendered to, the functions are listed. -/
theorem render_followedBy (registry : Registry) {language : TargetLanguage} {mark : String}
    (marked : language.lineComment? = some mark) (strict : Bool) (query : Query) :
    registry.render language strict query = (registry.render language strict query.bare).map
      (List.map (·.followedBy (annex (language.listed query.pipeline) mark ""))) := by
  cases language with
  | crowdStrike | splunk => cases marked
  | sigma =>
    cases marked
    exact Sigma.render_followedBy _ query
  | xql | axon | openSearch | openSearchMonitor | hunters =>
    cases marked
    exact QueryForm.render_followedBy rfl query

/-- In a language whose comments go up to the end of the line, the block behind a rendered query,
which lists the functions that could not be expressed, is a comment as a whole if and only if each
further line of the functions is blank or begins with the mark of comments. -/
theorem annex_commented_iff (registry : Registry) (language : TargetLanguage) (mark : String)
    (marked : language.lineComment? = some mark) (strict : Bool) (query : Query) :
    registry.render language strict query = (registry.render language strict query.bare).map
      (List.map (·.followedBy (annex (language.listed query.pipeline) mark ""))) ∧
    (IsCommented mark (annex (language.listed query.pipeline) mark "") ↔
      ∀ text ∈ language.listed query.pipeline, ∀ line ∈ (lines text).tail,
        IsCommentLine mark line) := by
  refine ⟨registry.render_followedBy marked strict query, isCommented_annex ?_ _⟩
  cases language <;> cases marked <;> decide

/-- A function with a blank line and a comment of its own stays a comment behind a query. -/
theorem annex_commented_iff_lines :
    TargetLanguage.hunters.lineComment? = some "--" ∧
    TargetLanguage.hunters.listed { notSupported := ["eval x=1\n \n-- all users"] } =
      ["eval x=1\n \n-- all users"] ∧
    IsCommented "--" (annex ["eval x=1\n \n-- all users"] "--" "") := by
  refine ⟨rfl, rfl, ?_⟩
  have exactly := (annex_commented_iff (alike (.ofRecords "" [])) .hunters "--" rfl false
    { tree := .group .and [], info := none,
      pipeline := { notSupported := ["eval x=1\n \n-- all users"] } }).2
  refine exactly.mpr ?_
  intro text listed
  cases List.mem_singleton.mp listed
  have all : (lines "eval x=1\n \n-- all users").tail.all
      (fun line => decide (IsCommentLine "--" line)) = true := by decide +kernel
  exact fun line own => of_decide_eq_true (List.all_eq_true.mp all line own)

/-- The second line of a stage of a Splunk search stands behind an OpenSearch query as if it were a
part of it. -/
theorem annex_line_escapes :
    (Spl.read (.ofRecords "splunk" []) "user=\"bob\" | eval x=1\nuser=\"eve\"" none).toOption.map
      (fun query => TargetLanguage.openSearch.listed query.pipeline) =
        some ["eval x=1\nuser=\"eve\""] ∧
    ¬ IsCommented "//" (annex ["eval x=1\nuser=\"eve\""] "//" "") := by
  refine ⟨by decide +kernel, ?_⟩
  rw [isCommented_annex (by decide)]
  intro all
  have second : "user=\"eve\"".toList ∈ (lines "eval x=1\nuser=\"eve\"").tail := by decide +kernel
  exact absurd (all _ (List.mem_singleton_self _) _ second) (by decide +kernel)

end Registry

end Detection

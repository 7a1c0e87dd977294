import Detection.Proofs.DefectFree
import Detection.Proofs.RenderedLiterals

/-!
# Lists in the form of a platform

An equality with several values can be written in two ways: in the form that a platform has for
lists, or as a chain of equalities with the single values. The form holds the literals alone, so it
says what the chain says only if each of them is the literal that the single equality has, and if
the single equality compares by that literal at all. Splunk and Lucene compare every single value in
one way. On the other platforms a value with wildcards is compared by another operator, and one such
value turns the whole list into a chain.
-/
namespace Detection

open Text

/-- What stands around and between the values of a list. -/
structure ListForm where
  opening : String
  separator : String
  closing : String

/-- The values of a list behind the field. -/
def ListForm.text (form : ListForm) (field : String) (literals : List String) : String :=
  field ++ form.opening ++ join form.separator literals ++ form.closing

/-- The form of a platform for lists. -/
def Platform.listForm : Platform → ListForm
  | splunk | crowdStrike => ⟨" IN (", ", ", ")"⟩
  | axon => ⟨" IN [", ", ", "]"⟩
  | openSearch => ⟨":(", " OR ", ")"⟩
  | xql => ⟨" in (", ", ", ")"⟩
  | hunters => ⟨" IN (", ", ", ")"⟩

/-- The platforms on which a value with wildcards has no place in a list. -/
def Platform.plainLists : List Platform := [.axon, .xql, .hunters]

/-- The same comparisons without a form for lists. -/
def Clauses.withoutLists (clauses : Clauses) : Clauses := { clauses with oneOf? := none }

/-- A text is the list of the literals that the equalities with the single values have. -/
def Clauses.IsListOf (clauses : Clauses) (form : ListForm) (sign field : String)
    (values : List Value) (text : String) : Prop :=
  ∃ literals, List.Forall₂ (fun value literal =>
      clauses.scalar field .eq value = .ok (field ++ sign ++ literal)) values literals ∧
    text = form.text field literals

section Comparison

variable {clauses : Clauses} {words : Words} {field : String} {values : List Value}

theorem Value.unwrapped_several (several : 2 ≤ values.length) :
    (Value.list values).unwrapped = .list values := by
  rcases values with _ | ⟨first, _ | ⟨second, others⟩⟩
  · simp at several
  · simp at several
  · rfl

/-- A platform with a form for lists writes several values in it. -/
theorem Clauses.comparison_oneOf {oneOf : String → List Value → Except RenderError String}
    (known : clauses.oneOf? = some oneOf) (named : field ≠ "") (several : 2 ≤ values.length) :
    clauses.comparison words field .eq (.list values) = oneOf field values := by
  have some : values ≠ [] := List.ne_nil_of_length_pos (by omega)
  simp [comparison, Value.unwrapped_several several, known, named, some]

/-- Without such a form they become a chain. -/
theorem Clauses.comparison_withoutLists (clauses : Clauses) (words : Words) (field : String)
    (several : 2 ≤ values.length) :
    clauses.withoutLists.comparison words field .eq (.list values) =
      (values.mapM (clauses.scalar field .eq)).map fun parts =>
        "(" ++ join (" " ++ words.or ++ " ") parts ++ ")" := by
  simp only [comparison, withoutLists, Value.unwrapped_several several]
  cases values.mapM (clauses.scalar field .eq) <;> rfl

/-- How a platform writes equalities with several values. A value has the same literal in a list as
in the equality with it alone, unless it is one of those that lists refuse. These are compared in
another way, and one of them turns the list into a chain. -/
structure Clauses.ListsBy (clauses : Clauses) (words : Words) (form : ListForm)
    (sign field : String) (refuses : Value → Bool) (literal : Value → Except RenderError String) :
    Prop where
  written : ∀ value, value.isSingle = true → ∃ text, literal value = .ok text
  same : ∀ value, refuses value = false →
    clauses.scalar field .eq value = (literal value).map (field ++ sign ++ ·)
  other : ∀ value, refuses value = true → ∃ text, clauses.scalar field .eq value = .ok text
  several : ∀ values, 2 ≤ values.length → (∀ value ∈ values, value.isSingle = true) →
    clauses.comparison words field .eq (.list values) =
      if values.any refuses then clauses.withoutLists.comparison words field .eq (.list values)
      else (values.mapM literal).map (form.text field)

namespace Clauses.ListsBy

variable {form : ListForm} {sign : String} {refuses : Value → Bool}
  {literal : Value → Except RenderError String}
  (lists : clauses.ListsBy words form sign field refuses literal)
include lists

/-- Where none is refused, values are written as the list of their literals. -/
theorem exists_list (several : 2 ≤ values.length)
    (single : ∀ value ∈ values, value.isSingle = true)
    (taken : ∀ value ∈ values, refuses value = false) :
    ∃ text, clauses.comparison words field .eq (.list values) = .ok text ∧
      clauses.IsListOf form sign field values text := by
  obtain ⟨literals, done⟩ := exists_mapM fun value own => lists.written value (single value own)
  refine ⟨form.text field literals, ?_, literals, ?_, rfl⟩
  · rw [lists.several values several single, if_neg (by simpa using taken), done]
    rfl
  · have each := (List.forall₂_and_left values literals).mpr ⟨taken, forall₂_of_mapM done⟩
    refine each.imp fun value text both => ?_
    rw [lists.same value both.1, both.2]
    rfl

/-- Every single value can be compared. -/
theorem exists_scalar {value : Value} (single : value.isSingle = true) :
    ∃ text, clauses.scalar field .eq value = .ok text := by
  cases refused : refuses value with
  | true => exact lists.other value refused
  | false =>
    obtain ⟨text, own⟩ := lists.written value single
    refine ⟨field ++ sign ++ text, ?_⟩
    rw [lists.same value refused, own]
    rfl

/-- One value that is refused is enough for a chain. -/
theorem exists_chain (several : 2 ≤ values.length)
    (single : ∀ value ∈ values, value.isSingle = true)
    (refused : ∃ value ∈ values, refuses value = true) :
    ∃ text, clauses.comparison words field .eq (.list values) = .ok text ∧
      clauses.withoutLists.comparison words field .eq (.list values) = .ok text := by
  obtain ⟨parts, done⟩ := exists_mapM fun value own => lists.exists_scalar (single value own)
  have chain := clauses.comparison_withoutLists words field several
  rw [done] at chain
  refine ⟨_, ?_, chain⟩
  rw [lists.several values several single, if_pos (List.any_eq_true.mpr refused)]
  exact chain

end Clauses.ListsBy

end Comparison

section Length

/-- Joining is no shorter with a longer text between the pieces and something in front of each. -/
theorem length_join_le {separator wider : String} (wide : separator.length ≤ wider.length)
    (lead piece : String) (others : List String) :
    (join separator (piece :: others)).length + lead.length ≤
      (join wider ((piece :: others).map (lead ++ ·))).length := by
  induction others generalizing piece with
  | nil =>
    simp only [join, List.map_cons, List.map_nil, String.length_append]
    omega
  | cons next others ih =>
    have behind := ih next
    simp only [List.map_cons] at behind ⊢
    simp only [join, String.length_append]
    omega

/-- The list of several literals is shorter than the chain of the equalities with them, if what the
form puts around them is no longer than what two equalities repeat. -/
theorem ListForm.text_ne_chain {form : ListForm} {sign field word : String}
    {literals : List String} (named : field ≠ "") (several : 2 ≤ literals.length)
    (wide : form.separator.length ≤ (" " ++ word ++ " ").length)
    (brief : form.opening.length + form.closing.length ≤ 2 * sign.length + 2) :
    form.text field literals ≠
      "(" ++ join (" " ++ word ++ " ") (literals.map (field ++ sign ++ ·)) ++ ")" := by
  rcases literals with _ | ⟨first, _ | ⟨second, others⟩⟩
  · simp at several
  · simp at several
  intro same
  have lengths := congrArg String.length same
  have behind := length_join_le wide (field ++ sign) second others
  have visible : field.length ≠ 0 := fun empty => named (String.length_eq_zero_iff.mp empty)
  simp only [List.map_cons] at behind lengths
  simp only [ListForm.text, join, String.length_append] at wide behind lengths
  have one : "(".length = 1 := rfl
  have other : ")".length = 1 := rfl
  omega

end Length

/-- Only a pattern has wildcards. -/
theorem Value.eq_pattern_of_isSpecial {value : Value} (special : value.isSpecial = true) :
    ∃ content, value = .pattern content true := by
  cases value with
  | pattern content marked =>
    obtain rfl : marked = true := special
    exact ⟨content, rfl⟩
  | number | text | list | absent => simp [isSpecial] at special

section Platforms

variable {field : String} (named : field ≠ "")
include named

/-- In Splunk searches every single value has a place in a list. -/
theorem Spl.listsBy (platform : String) (words : Words) :
    (Spl.clauses platform).ListsBy words ⟨" IN (", ", ", ")"⟩ "=" field (fun _ => false)
      (Spl.quoted "" · "") where
  written value single := by
    cases value with
    | number | text | pattern => exact ⟨_, rfl⟩
    | list | absent => cases single
  same value _ := by
    simp only [Spl.clauses, Spl.scalar, beq_iff_eq, named, ↓reduceIte]
    cases Spl.quoted "" value "" <;> rfl
  other value refused := by simp at refused
  several values several _ := by
    rw [Clauses.comparison_oneOf rfl named several, if_neg (by simp), Spl.oneOf]
    cases values.mapM (Spl.quoted "" · "") <;> rfl

/-- In the language of Lucene, too: a value with wildcards is written without quotes there, and so
it is in a list. -/
theorem Lucene.listsBy (words : Words) :
    Lucene.clauses.ListsBy words ⟨":(", " OR ", ")"⟩ ":" field (fun _ => false) Lucene.plain where
  written value single := by
    cases value with
    | number | text => exact ⟨_, rfl⟩
    | pattern content special => cases special <;> exact ⟨_, rfl⟩
    | list | absent => cases single
  same value _ := by
    simp only [Lucene.clauses, Lucene.scalar, beq_iff_eq, named, ↓reduceIte]
    cases Lucene.plain value <;> rfl
  other value refused := by simp at refused
  several values several _ := by
    rw [Clauses.comparison_oneOf rfl named several, if_neg (by simp), Lucene.oneOf]
    cases values.mapM Lucene.plain <;> rfl

/-- A value as a literal of Axon, also if it is a number. -/
def Axon.literal (value : Value) : Except RenderError String :=
  (Except.orDefect value.content).map Axon.quoted

omit named in
/-- A list of Axon has the literals of its values. There is none if one of them has wildcards. -/
theorem Axon.strictOneOf_eq {values : List Value}
    (each : ∀ value ∈ values, ∃ text, literal value = .ok text) :
    strictOneOf field values =
      if values.any Value.isSpecial then .error (.construct platform "wildcard in list" .soft)
      else (values.mapM literal).map (ListForm.text ⟨" IN [", ", ", "]"⟩ field) := by
  have step : ∀ value ∈ values, (do
      if value.isSpecial then throw (.construct platform "wildcard in list" .soft)
      return quoted (← Except.orDefect value.content)) =
        if value.isSpecial then .error (.construct platform "wildcard in list" .soft)
        else literal value := by
    intro value _
    split
    · rfl
    · rw [literal]
      cases Except.orDefect value.content <;> rfl
  rw [strictOneOf, mapM_congr step, mapM_refusing Value.isSpecial _ each]
  split
  · rfl
  · cases values.mapM literal <;> rfl

/-- Axon compares a value with wildcards by a regular expression. -/
theorem Axon.listsBy :
    Axon.clauses.ListsBy ⟨"OR", "AND"⟩ ⟨" IN [", ", ", "]"⟩ " = " field Value.isSpecial
      Axon.literal := by
  have written (value : Value) (single : value.isSingle = true) :
      ∃ text, Axon.literal value = .ok text := by
    obtain ⟨content, own⟩ := Value.exists_content single
    exact ⟨Axon.quoted content, by rw [Axon.literal, own]; rfl⟩
  refine ⟨written, fun value plain => ?_, fun value special => ?_, fun values several single => ?_⟩
  · simp only [Axon.clauses, Axon.scalar, Axon.fieldScalar, Axon.literal, beq_iff_eq, named, plain,
      Bool.false_eq_true, ↓reduceIte]
    cases value.content <;> rfl
  · obtain ⟨content, rfl⟩ := Value.eq_pattern_of_isSpecial special
    simp only [Axon.clauses, Axon.scalar, Axon.fieldScalar, beq_iff_eq, named, ↓reduceIte]
    exact ⟨_, rfl⟩
  · have each := fun value own => written value (single value own)
    obtain ⟨literals, done⟩ := exists_mapM each
    rw [Clauses.comparison_oneOf rfl named several, Clauses.comparison_withoutLists _ _ _ several,
      Axon.oneOf, Axon.strictOneOf_eq each, done]
    cases values.any Value.isSpecial with
    | true => exact bind_pure_comp _ (values.mapM (Axon.scalar field .eq))
    | false => rfl

theorem Xql.listsBy :
    Xql.clauses.ListsBy ⟨"or", "and"⟩ ⟨" in (", ", ", ")"⟩ " = " field Value.isSpecial
      Xql.literal where
  written _ single := Value.exists_literal _ _ _ single
  same value plain := by
    simp only [Xql.clauses, Xql.scalar, Xql.fieldScalar, Xql.compared, beq_iff_eq, named, plain,
      Bool.false_eq_true, ↓reduceIte]
    cases Xql.literal value with
    | error => rfl
    | ok text => exact congrArg Except.ok (by simp [String.append_assoc])
  other value special := by
    obtain ⟨content, rfl⟩ := Value.eq_pattern_of_isSpecial special
    simp only [Xql.clauses, Xql.scalar, Xql.fieldScalar, beq_iff_eq, named, ↓reduceIte]
    exact ⟨_, rfl⟩
  several values several single := by
    obtain ⟨literals, done⟩ : ∃ literals, values.mapM Xql.literal = .ok literals :=
      exists_mapM fun value own => Value.exists_literal _ _ _ (single value own)
    rw [Clauses.comparison_oneOf rfl named several, Clauses.comparison_withoutLists _ _ _ several,
      Xql.oneOf, done]
    cases values.any Value.isSpecial with
    | false => rfl
    | true => exact bind_pure_comp _ (values.mapM (Xql.scalar field .eq))

omit named in
/-- The literals of Hunters end where a value has wildcards. -/
theorem Hunters.literals_eq {values : List Value}
    (each : ∀ value ∈ values, ∃ text, literal value = .ok text) :
    literals values =
      if values.any Value.isSpecial then .ok none else (values.mapM literal).map some := by
  induction values with
  | nil => rfl
  | cons value others ih =>
    obtain ⟨⟨text, own⟩, rest⟩ := List.forall_mem_cons.mp each
    rw [literals, List.mapM_cons, ih rest, own, List.any_cons]
    cases value.isSpecial with
    | true => rfl
    | false =>
      cases others.any Value.isSpecial with
      | true => rfl
      | false => cases others.mapM literal <;> rfl

/-- Hunters compares a value with wildcards by LIKE. -/
theorem Hunters.listsBy :
    Hunters.clauses.ListsBy ⟨"OR", "AND"⟩ ⟨" IN (", ", ", ")"⟩ " = " field Value.isSpecial
      Hunters.literal where
  written _ single := Value.exists_literal _ _ _ single
  same value plain := by
    simp only [Hunters.clauses, Hunters.scalar, Hunters.compared, beq_iff_eq, named, plain,
      Bool.false_eq_true, ↓reduceIte]
    cases Hunters.literal value with
    | error => rfl
    | ok text => exact congrArg Except.ok (by simp [String.append_assoc])
  other value special := by
    obtain ⟨content, rfl⟩ := Value.eq_pattern_of_isSpecial special
    simp only [Hunters.clauses, Hunters.scalar, beq_iff_eq, named, ↓reduceIte]
    exact ⟨_, rfl⟩
  several values several single := by
    have each : ∀ value ∈ values, ∃ text, Hunters.literal value = .ok text :=
      fun value own => Value.exists_literal _ _ _ (single value own)
    obtain ⟨literals, done⟩ := exists_mapM each
    rw [Clauses.comparison_oneOf rfl named several, Clauses.comparison_withoutLists _ _ _ several,
      Hunters.oneOf, Hunters.literals_eq each, done]
    cases values.any Value.isSpecial with
    | true => exact bind_pure_comp _ (values.mapM (Hunters.scalar field .eq))
    | false => rfl

end Platforms

namespace Platform

/-- The values that have no place in the lists of a platform. -/
def refuses (platform : Platform) (value : Value) : Bool :=
  platform ∈ plainLists && value.isSpecial

/-- Each platform writes several values in its form, or as a chain if it refuses one of them. -/
theorem exists_listsBy (platform : Platform) (repository : Repository) (strict : Bool)
    {field : String} (named : field ≠ "") :
    ∃ literal, (platform.form repository strict).clauses.ListsBy
      (platform.form repository strict).words platform.listForm platform.sign field
      platform.refuses literal := by
  cases platform with
  | splunk => exact ⟨_, Spl.listsBy named "splunk" _⟩
  | crowdStrike => exact ⟨_, Spl.listsBy named "crowdstrike" _⟩
  | axon => exact ⟨_, Axon.listsBy named⟩
  | openSearch => exact ⟨_, Lucene.listsBy named _⟩
  | xql => exact ⟨_, Xql.listsBy named⟩
  | hunters => exact ⟨_, Hunters.listsBy named⟩

/-- The word between the equalities of a chain. -/
def orWord : Platform → String
  | xql => "or"
  | splunk | crowdStrike | axon | openSearch | hunters => "OR"

theorem words_or (platform : Platform) (repository : Repository) (strict : Bool) :
    (platform.form repository strict).words.or = platform.orWord := by
  cases platform <;> rfl

/-- On the platforms whose lists refuse wildcards, no list is the chain of the same values. -/
theorem list_ne_chain {platform : Platform} (plain : platform ∈ plainLists)
    (repository : Repository) (strict : Bool) {field : String} (named : field ≠ "")
    {values : List Value} (several : 2 ≤ values.length) {text : String}
    (isList : (platform.form repository strict).clauses.IsListOf platform.listForm platform.sign
      field values text) :
    (platform.form repository strict).clauses.withoutLists.comparison
      (platform.form repository strict).words field .eq (.list values) ≠ .ok text := by
  obtain ⟨literals, each, rfl⟩ := isList
  have scalars : values.mapM ((platform.form repository strict).clauses.scalar field .eq) =
      .ok (literals.map (field ++ platform.sign ++ ·)) :=
    mapM_of_forall₂ (List.forall₂_map_right_iff.mpr each)
  have brief : platform.listForm.separator.length ≤ (" " ++ platform.orWord ++ " ").length ∧
      platform.listForm.opening.length + platform.listForm.closing.length ≤
        2 * platform.sign.length + 2 := by
    simp only [plainLists, List.mem_cons, List.not_mem_nil, or_false] at plain
    rcases plain with rfl | rfl | rfl <;> decide
  rw [Clauses.comparison_withoutLists _ _ _ several, scalars, words_or]
  intro same
  exact ListForm.text_ne_chain named (each.length_eq ▸ several) brief.1 brief.2
    (Except.ok.inj same).symm

/-- An equality of a field with several single values is written in the form of the platform for
lists, with the literals that the equalities with the single values have, or it is the text that is
written without such a form. On the platforms whose lists refuse wildcards it is the latter exactly
if one of the values has wildcards. -/
theorem list_equality_agrees (platform : Platform) (repository : Repository) (strict : Bool)
    (field : String) (values : List Value) (named : field ≠ "") (several : 2 ≤ values.length)
    (single : ∀ value ∈ values, value.isSingle = true) :
    let form := platform.form repository strict
    ∃ text, form.clauses.comparison form.words field .eq (.list values) = .ok text ∧
      (form.clauses.IsListOf platform.listForm platform.sign field values text ∨
        form.clauses.withoutLists.comparison form.words field .eq (.list values) = .ok text) ∧
      (platform ∈ plainLists →
        (form.clauses.withoutLists.comparison form.words field .eq (.list values) = .ok text ↔
          ∃ value ∈ values, value.isSpecial = true)) := by
  intro form
  obtain ⟨literal, lists⟩ := platform.exists_listsBy repository strict named
  by_cases refused : ∃ value ∈ values, platform.refuses value = true
  · obtain ⟨text, written, chain⟩ := lists.exists_chain several single refused
    refine ⟨text, written, .inr chain, fun _ => ⟨fun _ => ?_, fun _ => chain⟩⟩
    obtain ⟨value, own, refuses⟩ := refused
    exact ⟨value, own, (Bool.and_eq_true _ _ |>.mp refuses).2⟩
  · have taken : ∀ value ∈ values, platform.refuses value = false := by simpa using refused
    obtain ⟨text, written, isList⟩ := lists.exists_list several single taken
    refine ⟨text, written, .inl isList, fun plain => ⟨fun chain => ?_, fun special => ?_⟩⟩
    · exact absurd chain (list_ne_chain plain repository strict named several isList)
    · obtain ⟨value, own, wild⟩ := special
      exact absurd ⟨value, own, by simp [Platform.refuses, plain, wild]⟩ refused

/-- The theorem at a number, a text with a quote and a text whose star is no wildcard, for which
Axon and Hunters write lists, and on Cortex with a wildcard behind these. -/
theorem list_equality_agrees_mixed :
    let repository := Repository.ofRecords "platform" []
    let axon := Platform.axon.form repository false
    let hunters := Platform.hunters.form repository false
    let xql := Platform.xql.form repository false
    let values : List Value := [.number "007", .text "a'b", .pattern "c*" false]
    let wild : List Value := values ++ [.pattern "d*" true]
    "f" ≠ "" ∧ 2 ≤ values.length ∧ (∀ value ∈ wild, value.isSingle = true) ∧
    axon.clauses.IsListOf Platform.axon.listForm " = " "f" values
      "f IN [\"007\", \"a'b\", \"c*\"]" ∧
    hunters.clauses.IsListOf Platform.hunters.listForm " = " "f" values
      "f IN (007, 'a''b', 'c*')" ∧
    xql.clauses.comparison xql.words "f" .eq (.list wild) =
      .ok "(f = 007 or f = \"a'b\" or f = \"c\\*\" or f ~= \"^d.*$\")" ∧
    xql.clauses.withoutLists.comparison xql.words "f" .eq (.list wild) =
      .ok "(f = 007 or f = \"a'b\" or f = \"c\\*\" or f ~= \"^d.*$\")" := by
  intro repository axon hunters xql values wild
  have named : "f" ≠ "" := by decide
  have several : 2 ≤ values.length := by decide
  have single : ∀ value ∈ wild, value.isSingle = true := by simp [wild, values, Value.isSingle]
  have listed (platform : Platform) (inside : platform ∈ plainLists) (text : String)
      (own : (platform.form repository false).clauses.comparison
        (platform.form repository false).words "f" .eq (.list values) = .ok text) :
      (platform.form repository false).clauses.IsListOf platform.listForm platform.sign "f" values
        text := by
    obtain ⟨found, written, either, chain⟩ := platform.list_equality_agrees repository false "f"
      values named several fun value member => single value (List.mem_append_left _ member)
    obtain rfl : found = text := Except.ok.inj (written.symm.trans own)
    refine either.resolve_right fun chained => ?_
    have special := (chain inside).mp chained
    simp [values, Value.isSpecial] at special
  have written : xql.clauses.comparison xql.words "f" .eq (.list wild) =
      .ok "(f = 007 or f = \"a'b\" or f = \"c\\*\" or f ~= \"^d.*$\")" := rfl
  obtain ⟨found, own, _, chain⟩ :=
    Platform.xql.list_equality_agrees repository false "f" wild named (by decide) single
  obtain rfl := Except.ok.inj (own.symm.trans written)
  exact ⟨named, several, single, listed .axon (by decide) _ rfl, listed .hunters (by decide) _ rfl,
    written, (chain (by decide)).mpr ⟨.pattern "d*" true, by simp [wild], rfl⟩⟩

end Platform

end Detection

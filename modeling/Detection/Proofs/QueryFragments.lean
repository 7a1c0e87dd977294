import Detection.Proofs.Infix

/-!
# What a written condition is made of

The text of a condition is a row of fragments: the clauses of all leaves of its tree, each once and
in their order, and between them nothing but connectives, negations and parentheses. Where every
field has to be mapped, the clause of a comparison is made under the names that the mapping itself
has for the field, and there is at least one. No other mapping is asked.
-/
namespace Detection

open Text

/-- The names on the platform that a mapping has itself for a field. -/
def SourceMapping.names (mapping : SourceMapping) (field : Field) : List String :=
  mapping.fields.platformNames (field.genericFor mapping.id)

/-- Where every field has to be mapped, it gets the names that the mapping has for it. -/
theorem FieldNaming.names_strict {naming : FieldNaming} (strict : naming.strict = true)
    {mapping : SourceMapping} {field : Field} {names : List String}
    (named : naming.names mapping field = .ok names) :
    mapping.names field = names ∧ names ≠ [] := by
  rw [FieldNaming.names] at named
  split at named
  · next own =>
    cases named
    exact ⟨rfl, by simpa using own⟩
  · cases named

/-- A part of a written condition: the clause of a leaf, or what stands between clauses. -/
inductive Fragment
  | glue (text : String)
  | clause (leaf : Leaf) (text : String)

namespace Fragment

def text : Fragment → String
  | glue text => text
  | clause _ text => text

/-- The leaf whose clause a fragment is. -/
def leaf? : Fragment → Option Leaf
  | glue _ => none
  | clause leaf _ => some leaf

def spelling : List Fragment → String
  | [] => ""
  | fragment :: others => fragment.text ++ spelling others

@[simp] theorem spelling_append (first second : List Fragment) :
    spelling (first ++ second) = spelling first ++ spelling second := by
  induction first with
  | nil => simp [spelling]
  | cons fragment others ih =>
    simp [spelling, ih, String.append_assoc]

end Fragment

namespace QueryForm

variable (form : QueryForm) (mapping : SourceMapping)

def glues : List String :=
  [form.separator .and, form.separator .or, form.notWord ++ " ", "(", ")"]

/-- A clause that compares a field under some names: under the only one, or between parentheses
under one or another of them. -/
inductive Compares (operator : Operator) (value : Value) : List String → String → Prop
  | one {name text : String}
      (written : form.clauses.comparison form.words name operator value = .ok text) :
      Compares operator value [name] text
  | several {names parts : List String} (many : 1 < names.length)
      (written : List.Forall₂ (fun name part =>
        form.clauses.comparison form.words name operator value = .ok part) names parts) :
      Compares operator value names ("(" ++ join (form.separator .or) parts ++ ")")

/-- A fragment of a condition in which each field is compared under the names that the mapping has
for it. -/
inductive Spelt : Fragment → Prop
  | glue {text : String} (listed : text ∈ form.glues) : Spelt (.glue text)
  | word {operator : Operator} {value : Value} {wildcards : Wildcards} {text : String}
      (written : form.clauses.comparison form.words "" operator value = .ok text) :
      Spelt (.clause (.keyword operator value wildcards) text)
  | comparison {field : Field} {operator : Operator} {value : Value} {wildcards : Wildcards}
      {text : String} (compared : form.Compares operator value (mapping.names field) text) :
      Spelt (.clause (.comparison field operator value wildcards) text)

/-- A text of fragments with the clauses of some leaves. -/
def Composes (leaves : List Leaf) (text : String) : Prop :=
  ∃ fragments : List Fragment, Fragment.spelling fragments = text ∧
    fragments.filterMap Fragment.leaf? = leaves ∧
    ∀ fragment ∈ fragments, form.Spelt mapping fragment

variable {form mapping}

namespace Composes

theorem nil : form.Composes mapping [] "" :=
  ⟨[], rfl, rfl, by simp⟩

theorem glue {text : String} (listed : text ∈ form.glues) : form.Composes mapping [] text := by
  refine ⟨[.glue text], by simp [Fragment.spelling, Fragment.text], rfl, ?_⟩
  simpa using Spelt.glue listed

/-- The clause of a leaf. -/
theorem clause {leaf : Leaf} {text : String} (spelt : form.Spelt mapping (.clause leaf text)) :
    form.Composes mapping [leaf] text := by
  refine ⟨[.clause leaf text], by simp [Fragment.spelling, Fragment.text], rfl, ?_⟩
  simpa using spelt

/-- One text behind another. -/
theorem append {first second : List Leaf} {text behind : String}
    (composes : form.Composes mapping first text) (others : form.Composes mapping second behind) :
    form.Composes mapping (first ++ second) (text ++ behind) := by
  obtain ⟨fragments, rfl, rfl, spelt⟩ := composes
  obtain ⟨more, rfl, rfl, moreSpelt⟩ := others
  refine ⟨fragments ++ more, by simp, by simp, ?_⟩
  exact List.forall_mem_append.mpr ⟨spelt, moreSpelt⟩

/-- A text between parentheses. -/
theorem enclosed {leaves : List Leaf} {text : String}
    (composes : form.Composes mapping leaves text) :
    form.Composes mapping leaves ("(" ++ text ++ ")") := by
  have opening : form.Composes mapping [] "(" := glue (by simp [glues])
  have closing : form.Composes mapping [] ")" := glue (by simp [glues])
  simpa using (opening.append composes).append closing

end Composes

/-- The clause of a leaf, where every field has to be mapped and no field stands in for others. -/
theorem leaf_spelt (strict : form.strict = true) (noRaw : form.rawField = "") {leaf : Leaf}
    {text : String} (done : form.leaf mapping leaf = .ok text) :
    form.Spelt mapping (.clause leaf text) := by
  cases leaf with
  | keyword => exact .word done
  | comparison field operator value wildcards =>
    refine .comparison ?_
    rw [QueryForm.leaf] at done
    split at done
    · simp [noRaw] at done
    · next name named =>
      rw [(FieldNaming.names_strict strict named).1]
      exact .one done
    · next names several named =>
      obtain ⟨own, present⟩ := FieldNaming.names_strict strict named
      obtain ⟨parts, written, done⟩ := exists_of_bind done
      cases done
      have many : 1 < names.length := by
        match names with
        | [] => contradiction
        | [name] => exact absurd rfl (several name)
        | _ :: _ :: _ => simp
      rw [own]
      exact .several many (forall₂_of_mapM written)

/-- The members of a group, of which those without any text are left out. -/
theorem conditions_composes {kind : GroupKind} {separator : String}
    (listed : separator ∈ form.glues)
    {members : List Tree}
    (each : ∀ member ∈ members, ∀ text, form.condition mapping member = .ok text →
      form.Composes mapping member.leaves text)
    {parts : List String} (done : form.conditions mapping kind members = .ok parts) :
    form.Composes mapping (members.flatMap Tree.leaves) (join separator parts) := by
  induction members generalizing parts with
  | nil =>
    rw [conditions] at done
    cases done
    exact .nil
  | cons member others ih =>
    rw [List.forall_mem_cons] at each
    rw [conditions] at done
    obtain ⟨text, written, done⟩ := exists_of_bind done
    obtain ⟨rest, othersWritten, done⟩ := exists_of_bind done
    have own := each.1 text written
    have behind := ih each.2 othersWritten
    have joined {part : String} (composes : form.Composes mapping member.leaves part) :
        form.Composes mapping (member.leaves ++ others.flatMap Tree.leaves)
          (join separator (part :: rest)) := by
      cases rest with
      | nil => simpa [join] using composes.append behind
      | cons =>
        rw [join]
        simpa using (composes.append (.glue listed)).append behind
    rw [List.flatMap_cons]
    split at done
    · next empty =>
      cases done
      obtain rfl : text = "" := by simpa using empty
      simpa using own.append behind
    · split at done
      · cases done
        exact joined own.enclosed
      · cases done
        exact joined own

/-- A condition is composed of the clauses of all its leaves. -/
theorem condition_composes (strict : form.strict = true) (noRaw : form.rawField = "") {tree : Tree}
    (proper : tree.Proper) {text : String} (done : form.condition mapping tree = .ok text) :
    form.Composes mapping tree.leaves text := by
  induction proper generalizing text with
  | leaf =>
    rw [condition] at done
    exact .clause (leaf_spelt strict noRaw done)
  | joined connective members _ ih =>
    rw [condition_joined] at done
    obtain ⟨parts, written, done⟩ := exists_of_bind done
    cases done
    have listed : form.separator connective ∈ form.glues := by
      cases connective <;> simp [glues]
    rw [Tree.leaves_group]
    exact conditions_composes listed (fun member inside text => ih member inside)
      written
  | negation member _ ih =>
    rw [condition] at done
    obtain ⟨inner, written, done⟩ := exists_of_bind done
    cases done
    have own := ih written
    have word : form.Composes mapping [] (form.notWord ++ " ") := .glue (by simp [glues])
    rw [Tree.leaves_group, List.flatMap_singleton]
    split
    · simpa using word.append own.enclosed
    · simpa using word.append own
  | single member _ ih =>
    rw [condition] at done
    rw [Tree.leaves_group, List.flatMap_singleton]
    exact ih done

end QueryForm

end Detection

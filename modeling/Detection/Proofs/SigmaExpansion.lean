import Detection.Proofs.Balance
import Detection.Proofs.SigmaSpelling

/-!
# The value of expanded conditions

A condition is expanded by carrying out its postfix order on a stack of token groups. Each
group on the stack stands between parentheses and has a leaf in it, so that NOT always finds an
operand in it and the compiler, which joins strictly from left to right, gives it a value of its
own wherever it is put. The invariant is the same for the tokens of one selection, for NOT in
front of a group, and for groups joined by AND or by OR, and it carries the induction over the
condition: carrying out the steps of a condition puts a group with the value of the condition
on the stack.
-/
namespace Detection

variable {tokens : List Token} {value : (Leaf → Bool) → Bool} {parts : List (List Token)}
  {values : List ((Leaf → Bool) → Bool)}

/-- A scope with a value is read as an operand with that value. -/
theorem Phrase.valueFrom_scope {truth : Leaf → Bool} {inner : Phrase} {value : Bool}
    (read : inner.value? truth = some value) (negations : Nat) (rest : Phrase)
    (before : Option Bool) (pending : Option Connective) :
    (scope negations inner rest).valueFrom truth before pending =
      rest.valueFrom truth (some (joinValue before pending (negatedValue negations value)))
        none := by
  rw [value?] at read
  simp only [valueFrom, read]

/-- The value behind one more operand is that of the connective over what stood before and the
operand. -/
theorem Phrase.joinValue_eq {connective : Connective} {before : Option Bool}
    {pending : Option Connective} (joins : before = none ∨ pending = some connective)
    (operand : Bool) :
    joinValue before pending operand = connective.valueOf (before.toList ++ [operand]) := by
  cases before with
  | none => simp [joinValue]
  | some value =>
    obtain rfl : pending = some connective := joins.resolve_left (by simp)
    have pair := connective.valueOf_cons value [operand]
    rw [connective.valueOf_singleton] at pair
    exact pair.symm

namespace Sigma

open Text Phrase

/-- Tokens that are read as one operand with a given value, whatever stands before and behind
them. -/
def IsOperand (tokens : List Token) (value : (Leaf → Bool) → Bool) : Prop :=
  ∀ rest : Phrase, rest.Grounded → ∃ phrase : Phrase, phrase.tokens = tokens ++ rest.tokens ∧
    phrase.Grounded ∧ phrase.leaves ≠ [] ∧
    ∀ truth before pending, phrase.valueFrom truth before pending =
      rest.valueFrom truth (some (Phrase.joinValue before pending (value truth))) none

/-- Operands with one connective between them. They are read from left to right behind the value
of what stands before, which counts as one more value; nothing stands before the first one. -/
theorem IsOperand.exists_joined (connective : Connective)
    (operands : List.Forall₂ IsOperand parts values) {first : List Token}
    (operand : IsOperand first value) :
    ∃ phrase : Phrase, joinTokens connective.token (first :: parts) = phrase.tokens ∧
      phrase.Grounded ∧ phrase.leaves ≠ [] ∧
      ∀ truth before pending, before = none ∨ pending = some connective →
        phrase.valueFrom truth before pending =
          some (connective.valueOf (before.toList ++ (value :: values).map (· truth))) := by
  induction operands generalizing first value with
  | nil =>
    obtain ⟨phrase, written, grounded, leaf, values⟩ := operand .done trivial
    refine ⟨phrase, by simp [joinTokens, written, tokens], grounded, leaf, ?_⟩
    intro truth before pending joins
    rw [values, joinValue_eq joins]
    rfl
  | @cons next nextValue parts values nextOperand operands ih =>
    obtain ⟨rest, written, restGrounded, _, restValue⟩ := ih nextOperand
    obtain ⟨phrase, front, grounded, leaf, values⟩ := operand (.word connective rest) restGrounded
    refine ⟨phrase, by simp [joinTokens, front, tokens, written], grounded, leaf, ?_⟩
    intro truth before pending joins
    rw [values, joinValue_eq joins, valueFrom, restValue truth _ _ (.inr rfl),
      Option.toList_some, List.singleton_append, Connective.valueOf_cons,
      ← Connective.valueOf_append, List.append_assoc]
    rfl

/-- Tokens between parentheses, with a leaf among them and with a given value under every
assignment. -/
def Denotes (tokens : List Token) (value : (Leaf → Bool) → Bool) : Prop :=
  ∃ inner : Phrase, tokens = enclosed inner.tokens ∧ inner.Grounded ∧ inner.leaves ≠ [] ∧
    ∀ truth, inner.value? truth = some (value truth)

namespace Denotes

/-- A group of tokens compiles to a tree with the value of the group. -/
theorem exists_compile (denotes : Denotes tokens value) :
    ∃ tree, compile tokens = .ok tree ∧ ∀ truth, tree.value truth = value truth := by
  obtain ⟨inner, rfl, grounded, _, values⟩ := denotes
  let phrase : Phrase := .scope 0 inner .done
  have written : phrase.tokens = enclosed inner.tokens := by simp [phrase, tokens, enclosed]
  have whole : phrase.Grounded := ⟨.inl rfl, grounded, trivial⟩
  obtain ⟨tree, compiled⟩ := phrase.exists_compile_iff.mpr whole
  refine ⟨tree, written ▸ compiled, fun truth => ?_⟩
  rw [value_of_compile compiled truth, value?, valueFrom_scope (values truth)]
  rfl

/-- The tokens of a selection between parentheses have the value of its tree. -/
theorem selection {tree : Tree} (compiled : compile tokens = .ok tree)
    (leaf : tokens.filterMap Token.leaf? ≠ []) :
    Denotes (enclosed tokens) fun truth => tree.value truth := by
  obtain ⟨phrase, rfl⟩ := exists_phrase_of_compile compiled
  rw [leaves_tokens] at leaf
  refine ⟨phrase, rfl, phrase.exists_compile_iff.mp ⟨tree, compiled⟩, leaf, fun truth => ?_⟩
  obtain ⟨chain, pending, built, rfl⟩ := (compile_phrase phrase tree).mp compiled
  obtain ⟨root, finished⟩ := Option.isSome_iff_exists.mp ((tree_isSome_iff built).mpr leaf)
  have read : chain.value? truth = phrase.value? truth :=
    chainFrom_value truth phrase .empty chain none pending built
  simp only [← read, Tree.value_ofScope, Chain.value?, finished]
  rfl

theorem not (denotes : Denotes tokens value) :
    Denotes (enclosed (.not :: tokens)) fun truth => !value truth := by
  obtain ⟨inner, rfl, grounded, leaf, values⟩ := denotes
  refine ⟨.scope 1 inner .done, by simp [tokens, enclosed], ⟨.inr leaf, grounded, trivial⟩,
    by simpa [leaves] using leaf, fun truth => ?_⟩
  rw [value?, valueFrom_scope (values truth)]
  rfl

/-- Operands that a connective joins, between parentheses. -/
theorem of_operands (connective : Connective) (operands : List.Forall₂ IsOperand parts values)
    (present : parts ≠ []) :
    Denotes (enclosed (joinTokens connective.token parts))
      fun truth => connective.valueOf (values.map (· truth)) := by
  cases operands with
  | nil => contradiction
  | cons operand operands =>
    obtain ⟨phrase, written, grounded, leaf, value⟩ :=
      IsOperand.exists_joined connective operands operand
    exact ⟨phrase, by rw [written], grounded, leaf, fun truth => value truth none none (.inl rfl)⟩

theorem isOperand (denotes : Denotes tokens value) : IsOperand tokens value := by
  obtain ⟨inner, rfl, grounded, leaf, values⟩ := denotes
  intro rest restGrounded
  refine ⟨.scope 0 inner rest, by simp [tokens, enclosed],
    ⟨.inl rfl, grounded, restGrounded⟩, by simp [leaves, leaf], ?_⟩
  intro truth before pending
  rw [valueFrom_scope (values truth)]
  rfl

/-- Several groups that a connective joins. -/
theorem join (connective : Connective) (denote : List.Forall₂ Denotes parts values)
    (present : parts ≠ []) :
    Denotes (enclosed (joinTokens connective.token parts))
      fun truth => connective.valueOf (values.map (· truth)) := by
  exact of_operands connective (denote.imp fun _ _ => isOperand) present

end Denotes

/-- The value of joined operands depends on which values there are only. -/
theorem valueOf_congr {connective : Connective} {left right : List Bool}
    (same : ∀ value, value ∈ left ↔ value ∈ right) :
    connective.valueOf left = connective.valueOf right := by
  rw [Bool.eq_iff_iff]
  cases connective with
  | and => simp only [Connective.valueOf, List.all_eq_true, same]
  | or => simp only [Connective.valueOf, List.any_eq_true, same]

/-- A name without a star is matched by itself. -/
theorem matching_name {target : String} (other : target ≠ "them")
    (plain : target.toList.getLast? ≠ some '*') (selections : Selections) :
    selections.matching target = (selections.names.find? (· == target)).toList := by
  rw [Selections.matching, if_neg (by simpa using other)]
  split
  · next lead starred =>
    have last : target.toList.getLast? = some '*' := by
      rw [← List.head?_reverse, starred, List.head?_cons]
    contradiction
  · rfl

/-- A star matches what starts with the text in front of it. -/
theorem matching_stem (beginning : String) (selections : Selections) :
    selections.matching (beginning ++ "*") =
      selections.names.filter fun name => startsWith beginning.toList name.toList := by
  have other : beginning ++ "*" ≠ "them" := by
    intro same
    have last := congrArg (fun text => text.toList.getLast?) same
    simp at last
  have starred : (beginning ++ "*").toList.reverse = '*' :: beginning.toList.reverse := by simp
  rw [Selections.matching, if_neg (by simpa using other), starred]
  simp only [List.reverse_reverse]

/-- A target matches the selections that it covers. -/
theorem mem_matching {target : Target} (valid : target.Valid) (selections : Selections)
    (name : String) :
    name ∈ selections.matching target.text ↔
      name ∈ selections.names ∧ target.covers name = true := by
  cases target with
  | one =>
    rw [Target.text, matching_name valid.2.1 valid.2.2, Option.mem_toList, Target.covers,
      beq_iff_eq]
    constructor
    · intro found
      exact ⟨List.mem_of_find?_eq_some found, by simpa using List.find?_some found⟩
    · rintro ⟨listed, rfl⟩
      cases found : selections.names.find? (· == name) with
      | none => simpa using List.find?_eq_none.mp found name listed
      | some other =>
        have same : other = name := by simpa using List.find?_some found
        rw [same]
  | stem =>
    rw [Target.text, matching_stem, List.mem_filter]
    rfl
  | them => simp [Target.text, Selections.matching, Target.covers]

/-- Selections that have trees: the tokens of each compile to its tree and hold a leaf. -/
def Selections.HaveTrees (selections : Selections) (trees : String → Tree) : Prop :=
  ∀ name ∈ selections.names, ∃ tokens, selections.tokens.lookup name = some tokens ∧
    compile tokens = .ok (trees name) ∧ tokens.filterMap Token.leaf? ≠ []

variable {selections : Selections} {trees : String → Tree}

/-- The value of a condition when each selection has the value of its tree. -/
def Condition.valueIn (condition : Condition) (selections : Selections) (trees : String → Tree)
    (truth : Leaf → Bool) : Bool :=
  condition.value selections.names fun name => (trees name).value truth

/-- The tokens of a quantifier that matches something. -/
theorem quantifiedTokens_eq (text : String) (selections : Selections) (connective : Connective)
    {target : String} (present : selections.matching target ≠ []) :
    quantifiedTokens text selections (quantifierWord connective) target =
      .ok (enclosed (joinTokens connective.token ((selections.matching target).map fun name =>
        enclosed ((selections.tokens.lookup name).getD [])))) := by
  have some : (selections.matching target).isEmpty = false := by simpa using present
  cases connective <;> simp only [quantifiedTokens, quantifierWord, some] <;> rfl

/-- A quantified group of selections has the value of the quantifier. -/
theorem quantifiedTokens_denotes (compiled : selections.HaveTrees trees) (text : String)
    (connective : Connective) {target : Target} (valid : target.Valid)
    (found : ∃ name ∈ selections.names, target.covers name = true) :
    ∃ tokens, quantifiedTokens text selections (quantifierWord connective) target.text =
        .ok tokens ∧
      Denotes tokens ((Condition.quantified connective target).valueIn selections trees) := by
  have matched (name : String) := mem_matching valid selections name
  have present : selections.matching target.text ≠ [] := by
    obtain ⟨name, listed, covered⟩ := found
    exact List.ne_nil_of_mem ((matched name).mpr ⟨listed, covered⟩)
  have denote : List.Forall₂ Denotes
      ((selections.matching target.text).map fun name =>
        enclosed ((selections.tokens.lookup name).getD []))
      ((selections.matching target.text).map fun name truth => (trees name).value truth) := by
    rw [List.forall₂_map_left_iff, List.forall₂_map_right_iff, List.forall₂_same]
    intro name belongs
    obtain ⟨tokens, stored, compiles, leaf⟩ := compiled name ((matched name).mp belongs).1
    rw [stored, Option.getD_some]
    exact Denotes.selection compiles leaf
  have value : (Condition.quantified connective target).valueIn selections trees =
      fun truth => connective.valueOf (((selections.matching target.text).map
        fun name truth => (trees name).value truth).map (· truth)) := by
    funext truth
    apply valueOf_congr
    simp [matched]
  refine ⟨_, quantifiedTokens_eq text selections connective present, ?_⟩
  rw [value]
  exact Denotes.join connective denote (by simpa using present)

/-- The word that joins operands by a connective. -/
def junctorOf : Connective → Junctor
  | .and => .and
  | .or => .or

/-- What carrying out some steps does to the stack: a group of tokens with a given value is put
on it. -/
def Pushes (text : String) (selections : Selections) (steps : List Step)
    (value : (Leaf → Bool) → Bool) : Prop :=
  ∃ tokens, Denotes tokens value ∧ ∀ operands rest,
    (steps ++ rest).foldlM (applyStep text selections) operands =
      rest.foldlM (applyStep text selections) (tokens :: operands)

namespace Pushes

variable {text : String} {steps others : List Step} {otherValue : (Leaf → Bool) → Bool}

/-- One step that finds what it needs in the selections. -/
theorem operand {step : Step} (denotes : Denotes tokens value)
    (applied : ∀ operands, applyStep text selections operands step = .ok (tokens :: operands)) :
    Pushes text selections [step] value := by
  refine ⟨tokens, denotes, fun operands rest => ?_⟩
  rw [List.singleton_append, List.foldlM_cons, applied]
  rfl

/-- NOT takes one group from the stack. -/
theorem not (pushes : Pushes text selections steps value) :
    Pushes text selections (steps ++ [.apply .not]) fun truth => !value truth := by
  obtain ⟨tokens, denotes, run⟩ := pushes
  refine ⟨_, denotes.not, fun operands rest => ?_⟩
  rw [List.append_assoc, run]
  rfl

/-- AND and OR take two groups from the stack, of which the second one lies on top. -/
theorem join (connective : Connective) (pushes : Pushes text selections steps value)
    (pushesOther : Pushes text selections others otherValue) :
    Pushes text selections (steps ++ others ++ [.apply (junctorOf connective)])
      fun truth => connective.apply (value truth) (otherValue truth) := by
  obtain ⟨tokens, denotes, run⟩ := pushes
  obtain ⟨otherTokens, otherDenotes, otherRun⟩ := pushesOther
  have denote : List.Forall₂ Denotes [tokens, otherTokens] [value, otherValue] :=
    .cons denotes (.cons otherDenotes .nil)
  have joined := Denotes.join connective denote (by simp)
  simp only [List.map_cons, List.map_nil, ← Connective.valueOf_apply,
    Connective.valueOf_singleton] at joined
  refine ⟨_, joined, fun operands rest => ?_⟩
  rw [List.append_assoc, List.append_assoc, run, otherRun, List.singleton_append, List.foldlM_cons]
  cases connective <;> rfl

end Pushes

/-- Carrying out the steps of a condition puts a group with its value on the stack. -/
theorem Condition.pushes (compiled : selections.HaveTrees trees) (text : String)
    (condition : Condition) (valid : ∀ target ∈ condition.targets, target.Valid)
    (known : ∀ name ∈ condition.names, name ∈ selections.names)
    (found : ∀ target ∈ condition.targets,
      ∃ name ∈ selections.names, target.covers name = true) :
    Pushes text selections condition.steps (condition.valueIn selections trees) := by
  induction condition with
  | name selection =>
    have listed : selection ∈ selections.names := known selection (by simp [names])
    obtain ⟨tokens, stored, compiles, leaf⟩ := compiled selection listed
    refine .operand (Denotes.selection compiles leaf) fun operands => ?_
    simp only [applyStep, stored]
  | quantified connective target =>
    have listed : target ∈ (quantified connective target).targets := by simp [targets]
    obtain ⟨tokens, quantifies, denotes⟩ :=
      quantifiedTokens_denotes compiled text connective (valid target listed) (found target listed)
    refine .operand denotes fun operands => ?_
    rw [applyStep, quantifies]
    rfl
  | not operand ih => exact (ih valid known found).not
  | and left right ihLeft ihRight =>
    rw [targets, List.forall_mem_append] at valid found
    rw [names, List.forall_mem_append] at known
    exact Pushes.join .and (ihLeft valid.1 known.1 found.1)
      (ihRight valid.2 known.2 found.2)
  | or left right ihLeft ihRight =>
    rw [targets, List.forall_mem_append] at valid found
    rw [names, List.forall_mem_append] at known
    exact Pushes.join .or (ihLeft valid.1 known.1 found.1)
      (ihRight valid.2 known.2 found.2)

/-- A condition is expanded to the one group that its postfix order leaves on the stack. -/
theorem expand_of_steps {text : String} {steps : List Step}
    (written : (trim text).isEmpty = false)
    (ordered : postfixFrom [] (terms (trim text)) = .ok steps)
    (run : steps.foldlM (applyStep (trim text) selections) [] = .ok [tokens]) :
    expand selections text = .ok tokens := by
  simp only [expand, written, ordered, Except.mapError, bind, Except.bind, run]
  rfl

/-- A condition that is spelt in a text, over selections that have trees, is expanded to tokens
that compile, and the tree has the value of the condition under every assignment: each name
stands for the value of its selection, and a quantifier for the OR or the AND of the selections
that its target covers. -/
theorem expand_value (selections : Selections) (trees : String → Tree)
    (compiled : selections.HaveTrees trees) (text : String) (condition : Condition)
    (spelt : SpeltIn text condition) (known : ∀ name ∈ condition.names, name ∈ selections.names)
    (found : ∀ target ∈ condition.targets,
      ∃ name ∈ selections.names, target.covers name = true) :
    ∃ tokens tree, expand selections text = .ok tokens ∧ compile tokens = .ok tree ∧
      ∀ truth, tree.value truth =
        condition.value selections.names fun name => (trees name).value truth := by
  obtain ⟨tokens, denotes, run⟩ :=
    condition.pushes compiled (trim text) spelt.valid_targets known found
  obtain ⟨tree, compiles, value⟩ := denotes.exists_compile
  refine ⟨tokens, tree, ?_, compiles, value⟩
  have pushed := run [] []
  rw [List.append_nil] at pushed
  exact expand_of_steps spelt.trim_isEmpty spelt.postfixFrom pushed

/-- A condition with operators in odd letter case, and with parentheses in the place of
blanks. -/
theorem speltIn_mixed : SpeltIn " Not(_a)OR 1 of b* aNd c"
    (.or (.not (.name "_a")) (.and (.quantified .or (.stem "b")) (.name "c"))) := by
  have excluded : Spells 3 ["Not", "(", "_a", ")"] (.not (.name "_a")) :=
    .not (by decide) (.enclosed (.product (.factor (.name (by decide)))))
  have some : Spells 3 ["1", "of", (Target.stem "b").text] (.quantified .or (.stem "b")) :=
    .quantified (by decide) (by decide) (by decide)
  have last : Spells 3 ["c"] (.name "c") := .name (by decide)
  have spelt : Recased "OR" "or" ∧ Recased "aNd" "and" := by decide
  refine ⟨_, .or spelt.1 (.product (.factor excluded)) (.and spelt.2 (.factor some) last), ?_⟩
  have text : " Not(_a)OR 1 of b* aNd c".toList =
      [' '] ++ "Not".toList ++ ([] ++ "(".toList ++ ([] ++ "_a".toList ++ ([] ++ ")".toList ++
        ([] ++ "OR".toList ++ ([' '] ++ "1".toList ++ ([' '] ++ "of".toList ++
          ([' '] ++ (Target.stem "b").text.toList ++ ([' '] ++ "aNd".toList ++
            ([' '] ++ "c".toList ++ []))))))))) := by decide
  have blank : isBlank ' ' = true := rfl
  rw [text]
  refine .word ?_ ?_ <| .word ?_ ?_ <| .word ?_ ?_ <| .word ?_ ?_ <| .word ?_ ?_ <|
    .word ?_ ?_ <| .word ?_ ?_ <| .word ?_ ?_ <| .word ?_ ?_ <| .word ?_ ?_ <| .done ?_
  all_goals simp [IsInside, blank]

/-- The theorem at four selections, one of which is hidden and two of which have a common
beginning. AND binds more tightly than the OR in front of it. -/
theorem expand_value_mixed :
    let word (text : String) : Leaf := .keyword .keyword (.text text) {}
    let selections := (((({} : Selections).add "_a" [.not, .leaf (word "p")]).add
      "b1" [.leaf (word "q")]).add "b2" [.leaf (word "r"), .and, .leaf (word "s")]).add
      "c" [.leaf (word "t")]
    ∃ tokens tree, expand selections " Not(_a)OR 1 of b* aNd c" = .ok tokens ∧
      compile tokens = .ok tree ∧ ∀ truth, tree.value truth =
        (!!truth (word "p") || (truth (word "q") || truth (word "r") && truth (word "s")) &&
          truth (word "t")) := by
  intro word selections
  let trees (name : String) : Tree :=
    match name with
    | "_a" => .group .not [.leaf (word "p")]
    | "b1" => .group .single [.leaf (word "q")]
    | "b2" => .group .and [.leaf (word "r"), .leaf (word "s")]
    | _ => .group .single [.leaf (word "t")]
  have compiled : selections.HaveTrees trees := by
    intro name listed
    have names : name ∈ ["_a", "b1", "b2", "c"] := listed
    simp only [List.mem_cons, List.not_mem_nil, or_false] at names
    rcases names with rfl | rfl | rfl | rfl <;> exact ⟨_, rfl, rfl, by simp [Token.leaf?]⟩
  obtain ⟨tokens, tree, expanded, compiles, value⟩ := expand_value selections trees compiled _ _
    speltIn_mixed (by decide) (by decide)
  refine ⟨tokens, tree, expanded, compiles, fun truth => ?_⟩
  rw [value truth]
  have covered : selections.names.filter (Target.stem "b").covers = ["b1", "b2"] := by decide
  simp [Condition.value, covered, Connective.valueOf, trees]

end Sigma

end Detection

import Detection.Proofs.SigmaGrammar

/-!
# How Sigma conditions are spelt

A condition over selections may name them, quantify over those that a target covers, and
combine such operands by NOT, AND and OR. It is written as words: the operators in any
letter case, and parentheses as words of their own. NOT binds most tightly and OR least, and
AND and OR take what stands on their left first. The words are laid out in a text with blanks
between them, as many as one likes, and with none where a parenthesis parts two words already.

The main statement of this module is that a text in which a condition is spelt is brought into
the postfix order of that condition. A name may look like the number of a quantifier, such as
`1` or `all`. It is not taken for one because the word `of` never follows a name.
-/
namespace Detection.Sigma

open Text

variable {word : String} {words : List String} {rank : Nat}

/-- Which selections a quantifier is about: the one of a name, those whose names have a
common beginning, or all that are not hidden. -/
inductive Target
  | one (name : String)
  | stem (beginning : String)
  | them
  deriving DecidableEq, Repr

namespace Target

/-- A target as a condition writes it. -/
def text : Target → String
  | one name => name
  | stem beginning => beginning ++ "*"
  | them => "them"

/-- Whether a target covers a selection. A selection whose name starts with an underscore is
hidden. -/
def covers : Target → String → Bool
  | one name, selection => selection == name
  | stem beginning, selection => beginning.toList.isPrefixOf selection.toList
  | them, selection => selection.toList.head? != some '_'

end Target

/-- A condition over selections. A quantifier joins the selections of its target by OR or by
AND. -/
inductive Condition
  | name (selection : String)
  | quantified (connective : Connective) (target : Target)
  | not (operand : Condition)
  | and (left right : Condition)
  | or (left right : Condition)
  deriving DecidableEq, Repr

variable {condition : Condition}

/-- The number of a quantifier: one of several is enough, or all of them are asked for. -/
def quantifierWord : Connective → String
  | .or => "1"
  | .and => "all"

namespace Condition

/-- Whether a condition holds when some selections, out of those with given names, do. -/
def value (names : List String) (holds : String → Bool) : Condition → Bool
  | name selection => holds selection
  | quantified connective target => connective.valueOf ((names.filter target.covers).map holds)
  | not operand => !operand.value names holds
  | and left right => left.value names holds && right.value names holds
  | or left right => left.value names holds || right.value names holds

/-- The selections that a condition names. -/
def names : Condition → List String
  | name selection => [selection]
  | quantified .. => []
  | not operand => operand.names
  | and left right => left.names ++ right.names
  | or left right => left.names ++ right.names

/-- The targets that a condition quantifies over. -/
def targets : Condition → List Target
  | name _ => []
  | quantified _ target => [target]
  | not operand => operand.targets
  | and left right => left.targets ++ right.targets
  | or left right => left.targets ++ right.targets

/-- The postfix order of a condition. -/
def steps : Condition → List Step
  | name selection => [.name selection]
  | quantified connective target => [.quantified (quantifierWord connective) target.text]
  | not operand => operand.steps ++ [.apply .not]
  | and left right => left.steps ++ right.steps ++ [.apply .and]
  | or left right => left.steps ++ right.steps ++ [.apply .or]

end Condition

/-- A word is another one in some letter case. -/
def Recased (word plain : String) : Prop :=
  word.toList.map Char.toLower = plain.toList

instance (word plain : String) : Decidable (Recased word plain) :=
  inferInstanceAs (Decidable (_ = _))

/-- A character that can stand in a word. -/
def IsInside (c : Char) : Prop :=
  isBlank c = false ∧ c ≠ '(' ∧ c ≠ ')'

instance (c : Char) : Decidable (IsInside c) :=
  inferInstanceAs (Decidable (_ ∧ _ ∧ _))

/-- A word has characters in it, none of which parts words. -/
structure IsWord (word : String) : Prop where
  some : word ≠ ""
  inside : ∀ c ∈ word.toList, IsInside c

instance (word : String) : Decidable (IsWord word) :=
  decidable_of_iff (word ≠ "" ∧ word.toList.all (decide <| IsInside ·) = true)
    ⟨fun valid => ⟨valid.1, by simpa using valid.2⟩,
      fun valid => ⟨valid.some, by simpa using valid.inside⟩⟩

/-- A word that can name a selection: letters, digits and underscores, or whatever else does
not part words, but no operator. -/
structure IsSelectionName (name : String) : Prop where
  word : IsWord name
  free : ∀ junctor : Junctor, ¬ Recased name junctor.name

instance (name : String) : Decidable (IsSelectionName name) :=
  decidable_of_iff (IsWord name ∧ ∀ junctor ∈ [Junctor.not, .and, .or], ¬ Recased name junctor.name)
    ⟨fun valid => ⟨valid.1, fun junctor => valid.2 junctor (by cases junctor <;> decide)⟩,
      fun valid => ⟨valid.word, fun junctor _ => valid.free junctor⟩⟩

/-- A target that says what it covers. A name that ends in a star would be a common
beginning. -/
def Target.Valid : Target → Prop
  | one name => IsSelectionName name ∧ name ≠ "them" ∧ name.toList.getLast? ≠ some '*'
  | stem beginning => ∀ c ∈ beginning.toList, IsInside c
  | them => True

instance : (target : Target) → Decidable target.Valid
  | .one name =>
    inferInstanceAs (Decidable (IsSelectionName name ∧ name ≠ "them" ∧
      name.toList.getLast? ≠ some '*'))
  | .stem beginning =>
    decidable_of_iff (beginning.toList.all (decide <| IsInside ·) = true)
      (by simp [Target.Valid])
  | .them => inferInstanceAs (Decidable True)

/-- The words of a condition, by how tightly it is bound: an OR at rank one, an AND at rank
two, a factor at rank three. -/
inductive Spells : Nat → List String → Condition → Prop
  | name {selection : String} (valid : IsSelectionName selection) :
      Spells 3 [selection] (.name selection)
  | quantified {connective : Connective} {number of : String} {target : Target}
      (counted : Recased number (quantifierWord connective)) (parted : Recased of "of")
      (valid : target.Valid) : Spells 3 [number, of, target.text] (.quantified connective target)
  | enclosed {words : List String} {inner : Condition} (spells : Spells 1 words inner) :
      Spells 3 ("(" :: (words ++ [")"])) inner
  | not {word : String} {words : List String} {operand : Condition}
      (spelt : Recased word "not") (spells : Spells 3 words operand) :
      Spells 3 (word :: words) (.not operand)
  | and {word : String} {words others : List String} {left right : Condition}
      (spelt : Recased word "and") (spells : Spells 2 words left)
      (spellsRight : Spells 3 others right) :
      Spells 2 (words ++ word :: others) (.and left right)
  | or {word : String} {words others : List String} {left right : Condition}
      (spelt : Recased word "or") (spells : Spells 1 words left)
      (spellsRight : Spells 2 others right) :
      Spells 1 (words ++ word :: others) (.or left right)
  | factor {words : List String} {condition : Condition} (spells : Spells 3 words condition) :
      Spells 2 words condition
  | product {words : List String} {condition : Condition} (spells : Spells 2 words condition) :
      Spells 1 words condition

/-- A text in which words are laid out. Blanks may stand anywhere between them, and have to
where neither the word before nor the character behind is a parenthesis. -/
inductive Layout : List String → List Char → Prop
  | done {gap : List Char} (blank : ∀ c ∈ gap, isBlank c = true) : Layout [] gap
  | word {gap rest : List Char} {word : String} {words : List String}
      (blank : ∀ c ∈ gap, isBlank c = true)
      (apart : word ∈ ["(", ")"] ∨ ∀ c ∈ rest.head?, ¬ IsInside c)
      (laid : Layout words rest) : Layout (word :: words) (gap ++ word.toList ++ rest)

/-- The words of conditions that are no names. -/
def operatorWords : List String := ["not", "and", "or", "of", "1", "all"]

theorem name_mem_operatorWords (junctor : Junctor) : junctor.name ∈ operatorWords := by
  cases junctor <;> decide

theorem quantifierWord_mem_operatorWords (connective : Connective) :
    quantifierWord connective ∈ operatorWords := by
  cases connective <;> decide

theorem letters_operatorWords :
    ∀ plain ∈ operatorWords, ∀ c ∈ plain.toList, c.toNat < 128 ∧ IsInside c := by
  have checked : operatorWords.all (fun plain =>
      plain.toList.all fun c => decide (c.toNat < 128 ∧ IsInside c)) = true := by decide
  simpa only [List.all_eq_true, decide_eq_true_eq] using checked

namespace Recased

section

variable {plain : String} (recased : Recased word plain) (listed : plain ∈ operatorWords)
include recased listed

/-- An operator in any letter case is in ASCII. -/
theorem ascii :
    ∀ c ∈ word.toList, c.toNat < 128 ∧ c.toLower ∈ plain.toList := by
  intro c belongs
  have lowered : c.toLower ∈ plain.toList := recased ▸ List.mem_map_of_mem belongs
  refine ⟨?_, lowered⟩
  by_contra foreign
  rw [toLower_foreign (Nat.not_lt.mp foreign)] at lowered
  exact foreign (letters_operatorWords plain listed c lowered).1

theorem lower_eq : lower word = plain := by
  have each : word.toList.map lowerChar = word.toList.map Char.toLower :=
    List.map_congr_left fun c belongs => by
      simp [lowerChar, (recased.ascii listed c belongs).1]
  rw [lower, each, recased, String.ofList_toList]

/-- An operator in any letter case is the operator without regard to case. -/
theorem foldKey_eq : word.toList.map foldKey = plain.toList := by
  have each : word.toList.map foldKey = word.toList.map Char.toLower :=
    List.map_congr_left fun c belongs => by
      simp [foldKey, (recased.ascii listed c belongs).1]
  rw [each, recased]

theorem isWord : IsWord word := by
  constructor
  · rintro rfl
    have written : ∀ plain ∈ operatorWords, [] ≠ plain.toList := by decide
    exact written plain listed recased
  · intro c belongs
    obtain ⟨ascii, lowered⟩ := recased.ascii listed c belongs
    have parts : ∀ c : Char, c.toNat < 128 → ¬ IsInside c → c.toLower = c :=
      forall_ascii (by decide)
    by_contra outside
    rw [parts c ascii outside] at lowered
    exact outside (letters_operatorWords plain listed c lowered).2

/-- An operator compares like itself in lower case. -/
theorem equalFold_eq (other : String) : equalFold word other = equalFold plain other := by
  have keys : ∀ plain ∈ operatorWords, plain.toList.map foldKey = plain.toList := by decide
  rw [equalFold, equalFold, recased.foldKey_eq listed, keys plain listed]

/-- An operator is the number of a quantifier if it is one in lower case. -/
theorem isQuantifier_eq : isQuantifier word = isQuantifier plain := by
  have digits : ∀ c : Char, c.toNat < 128 → c.isDigit = c.toLower.isDigit :=
    forall_ascii (by decide)
  have all : word.toList.all Char.isDigit = plain.toList.all Char.isDigit := by
    have each : word.toList.map Char.isDigit = plain.toList.map Char.isDigit := by
      rw [← recased, List.map_map]
      exact List.map_congr_left fun c belongs => digits c (recased.ascii listed c belongs).1
    simpa [List.all_map] using congrArg (List.all · id) each
  have written : ∀ plain ∈ operatorWords, plain.isEmpty = false := by decide
  have whole : word.isEmpty = false := by
    simpa using (recased.isWord listed).some
  rw [isQuantifier, isQuantifier, recased.equalFold_eq listed, all, whole, written plain listed]

end

theorem termOf (junctor : Junctor) (recased : Recased word junctor.name) :
    termOf word = .junctor junctor := by
  rw [Sigma.termOf, recased.lower_eq (name_mem_operatorWords junctor)]
  cases junctor <;> rfl

/-- A word that combines operands is no part of a quantifier. -/
theorem plain_of_junctor (junctor : Junctor) (recased : Recased word junctor.name) :
    isQuantifier word = false ∧ equalFold word "of" = false := by
  have listed := name_mem_operatorWords junctor
  rw [recased.isQuantifier_eq listed, recased.equalFold_eq listed]
  cases junctor <;> decide

end Recased

/-- A word that is no operator does not become one in lower case. -/
theorem IsSelectionName.lower_ne_name {name : String} (valid : IsSelectionName name)
    (junctor : Junctor) : lower name ≠ junctor.name := by
  intro same
  have letters : ∀ c ∈ junctor.name.toList, c.toNat < 128 ∧ c.toNat ∉ foreignImages := by
    have checked : junctor.name.toList.all
        (fun c => decide (c.toNat < 128 ∧ c.toNat ∉ foreignImages)) = true := by
      cases junctor <;> decide
    simpa only [List.all_eq_true, decide_eq_true_eq] using checked
  have spelt : name.toList.map lowerChar = junctor.name.toList := by
    rw [← same, lower, String.toList_ofList]
  apply valid.free junctor
  rw [Recased, ← spelt]
  refine List.map_congr_left fun c belongs => ?_
  have inside : lowerChar c ∈ junctor.name.toList := spelt ▸ List.mem_map_of_mem belongs
  obtain ⟨ascii, common⟩ := letters _ inside
  exact (toLower_of_lowerChar ascii common rfl).2

/-- A word does not become a parenthesis in lower case. -/
theorem IsWord.lower_ne_mark (valid : IsWord word) {mark : Char} (listed : mark ∈ ['(', ')']) :
    lower word ≠ String.singleton mark := by
  intro same
  have spelt : word.toList.map lowerChar = [mark] := by
    rw [← String.toList_singleton, ← same, lower, String.toList_ofList]
  obtain ⟨c, written, lowered⟩ := List.map_eq_singleton_iff.mp spelt
  have inside := valid.inside c (by simp [written])
  rcases List.mem_pair.mp listed with rfl | rfl
  · exact inside.2.1 (eq_of_lowerChar (by decide) (by decide) (by decide) lowered)
  · exact inside.2.2 (eq_of_lowerChar (by decide) (by decide) (by decide) lowered)

theorem IsSelectionName.termOf {name : String} (valid : IsSelectionName name) :
    termOf name = .name name := by
  rw [Sigma.termOf]
  split
  · next same => exact absurd same (valid.lower_ne_name .and)
  · next same => exact absurd same (valid.lower_ne_name .or)
  · next same => exact absurd same (valid.lower_ne_name .not)
  · next same => exact absurd same (valid.word.lower_ne_mark (by simp : '(' ∈ ['(', ')']))
  · next same => exact absurd same (valid.word.lower_ne_mark (by simp : ')' ∈ ['(', ')']))
  · rfl

theorem Target.Valid.isWord {target : Target} (valid : target.Valid) : IsWord target.text := by
  cases target with
  | one name => exact valid.1.word
  | stem beginning =>
    have star : IsInside '*' := by decide
    constructor
    · simp [Target.text]
    · intro c belongs
      simp only [Target.text, String.toList_append, List.mem_append] at belongs
      rcases belongs with lead | last
      · exact valid c lead
      · rwa [List.mem_singleton.mp last]
  | them =>
    have word : IsWord "them" := by decide
    exact word

/-- What a condition quantifies over is covered by valid targets. -/
theorem Spells.valid_targets (spells : Spells rank words condition) :
    ∀ target ∈ condition.targets, target.Valid := by
  induction spells with
  | name => simp [Condition.targets]
  | quantified counted parted valid => simpa [Condition.targets] using valid
  | enclosed spells ih => exact ih
  | not spelt spells ih => exact ih
  | and spelt spells spellsRight ihLeft ihRight =>
    exact List.forall_mem_append.mpr ⟨ihLeft, ihRight⟩
  | or spelt spells spellsRight ihLeft ihRight =>
    exact List.forall_mem_append.mpr ⟨ihLeft, ihRight⟩
  | factor spells ih => exact ih
  | product spells ih => exact ih

theorem Spells.isWord (spells : Spells rank words condition) :
    ∀ word ∈ words, word ∈ ["(", ")"] ∨ IsWord word := by
  induction spells with
  | name valid => simp [valid.word]
  | @quantified connective _ _ _ counted parted valid =>
    have number := counted.isWord (quantifierWord_mem_operatorWords connective)
    have of := parted.isWord (by decide)
    simp [number, of, valid.isWord]
  | enclosed spells ih =>
    simpa [or_imp, forall_and] using ih
  | not spelt spells ih =>
    have word := spelt.isWord (by decide)
    exact List.forall_mem_cons.mpr ⟨.inr word, ih⟩
  | and spelt spells spellsRight ihLeft ihRight
  | or spelt spells spellsRight ihLeft ihRight =>
    have word := spelt.isWord (by decide)
    exact List.forall_mem_append.mpr
      ⟨ihLeft, List.forall_mem_cons.mpr ⟨.inr word, ihRight⟩⟩
  | factor spells ih => exact ih
  | product spells ih => exact ih

/-- No quantifier goes on behind some words: the next one is not `of`. -/
def Ends (rest : List String) : Prop :=
  ∀ next ∈ rest.head?, equalFold next "of" = false

/-- The parts that words are, whatever other words come behind. -/
def Parts (words : List String) (terms : List Term) : Prop :=
  ∀ rest, Ends rest → termsOf (words ++ rest) = terms ++ termsOf rest

namespace Parts

variable {others : List String} {terms otherTerms : List Term}

theorem name {selection : String} (valid : IsSelectionName selection) :
    Parts [selection] [.name selection] := by
  intro rest ends
  rw [List.singleton_append, termsOf_cons (.inr ends), valid.termOf, List.singleton_append]

/-- A number, `of` and a target are one part. -/
theorem quantified {connective : Connective} {number of : String} (target : String)
    (counted : Recased number (quantifierWord connective)) (parted : Recased of "of") :
    Parts [number, of, target] [.quantified (quantifierWord connective) target] := by
  intro rest _
  have listed := quantifierWord_mem_operatorWords connective
  have count : isQuantifier number = true := by
    rw [counted.isQuantifier_eq listed]
    cases connective <;> decide
  have part : equalFold of "of" = true := by
    rw [parted.equalFold_eq (by decide)]
    decide
  simp [termsOf, count, part, counted.lower_eq listed]

theorem enclosed (inner : Parts words terms) :
    Parts ("(" :: (words ++ [")"])) (.opening :: (terms ++ [.closing])) := by
  intro rest _
  have ends : Ends (")" :: rest) := by
    rintro next ⟨⟩
    decide
  have opening : termsOf ("(" :: (words ++ ")" :: rest)) =
      .opening :: termsOf (words ++ ")" :: rest) :=
    termsOf_cons (.inl (by decide))
  have closing : termsOf (")" :: rest) = .closing :: termsOf rest :=
    termsOf_cons (.inl (by decide))
  simp [opening, inner _ ends, closing]

/-- A word that combines operands is a part, and so are those of what comes behind it. -/
theorem junctor (junctor : Junctor) (spelt : Recased word junctor.name)
    (behind : Parts words terms) : Parts (word :: words) (.junctor junctor :: terms) := by
  intro rest ends
  rw [List.cons_append, termsOf_cons (.inl (spelt.plain_of_junctor junctor).1),
    spelt.termOf junctor, behind rest ends, List.cons_append]

/-- A word between the words of two operands. -/
theorem join (junctor : Junctor) (spelt : Recased word junctor.name) (first : Parts words terms)
    (second : Parts others otherTerms) :
    Parts (words ++ word :: others) (terms ++ .junctor junctor :: otherTerms) := by
  intro rest ends
  have parted : Ends (word :: (others ++ rest)) := by
    rintro next ⟨⟩
    exact (spelt.plain_of_junctor junctor).2
  have behind := second.junctor junctor spelt rest ends
  rw [List.cons_append] at behind
  rw [List.append_assoc, List.cons_append, first _ parted, behind, List.append_assoc]

end Parts

/-- The words of a condition are parts that stand for its postfix order. -/
theorem Spells.standsFor (spells : Spells rank words condition) :
    ∃ terms, Parts words terms ∧ StandsFor rank terms condition.steps := by
  induction spells with
  | @name selection valid =>
    exact ⟨_, Parts.name valid, fun waiting _ => Emits.name waiting selection⟩
  | @quantified connective number of target counted parted valid =>
    exact ⟨_, Parts.quantified target.text counted parted,
      fun waiting _ => Emits.quantified waiting _ _⟩
  | enclosed spells ih =>
    obtain ⟨terms, parts, stands⟩ := ih
    exact ⟨_, parts.enclosed, stands.enclosed⟩
  | not spelt spells ih =>
    obtain ⟨terms, parts, stands⟩ := ih
    exact ⟨_, parts.junctor .not spelt, stands.not⟩
  | and spelt spells spellsRight ihLeft ihRight =>
    obtain ⟨terms, parts, stands⟩ := ihLeft
    obtain ⟨otherTerms, otherParts, otherStands⟩ := ihRight
    exact ⟨_, parts.join .and spelt otherParts, stands.and otherStands⟩
  | or spelt spells spellsRight ihLeft ihRight =>
    obtain ⟨terms, parts, stands⟩ := ihLeft
    obtain ⟨otherTerms, otherParts, otherStands⟩ := ihRight
    exact ⟨_, parts.join .or spelt otherParts, stands.or otherStands⟩
  | factor spells ih =>
    obtain ⟨terms, parts, stands⟩ := ih
    exact ⟨terms, parts, stands.factor⟩
  | product spells ih =>
    obtain ⟨terms, parts, stands⟩ := ih
    exact ⟨terms, parts, stands.product⟩

/-- Nothing is put into or in front of blanks. -/
theorem spaced_lead {gap : List Char} (blank : ∀ c ∈ gap, isBlank c = true) (rest : List Char) :
    spaced (gap ++ rest) = gap ++ spaced rest := by
  have outside : ∀ c ∈ gap, c ≠ '(' ∧ c ≠ ')' := by
    intro c belongs
    have own := blank c belongs
    constructor
    · rintro rfl
      exact absurd own (by decide)
    · rintro rfl
      exact absurd own (by decide)
  rw [spaced, List.flatMap_append]
  exact congrArg (· ++ spaced rest) (spaced_plain outside)

/-- What parts words starts with a blank once parentheses are set apart. -/
theorem spaced_outside {c : Char} (outside : ¬ IsInside c) (rest : List Char) :
    ∃ mark after, isBlank mark = true ∧ spaced (c :: rest) = mark :: after := by
  by_cases parenthesis : c = '(' ∨ c = ')'
  · refine ⟨' ', c :: ' ' :: spaced rest, rfl, ?_⟩
    rcases parenthesis with rfl | rfl <;> rfl
  · have blank : isBlank c = true := by
      by_contra inside
      exact outside ⟨Bool.eq_false_iff.mpr inside, not_or.mp parenthesis⟩
    exact ⟨c, spaced rest, blank, @spaced_lead [c] (by simpa using blank) rest⟩

theorem conditionWords_trim (text : String) : conditionWords (trim text) = conditionWords text := by
  obtain ⟨lead, trail, leading, trailing, whole⟩ := exists_trimBy isBlank text.toList
  have behind : spaced trail = trail := by
    simpa [spaced] using spaced_lead trailing []
  have parts : spaced text.toList = lead ++ (spaced (trimBy isBlank text.toList) ++ trail) := by
    calc spaced text.toList
        = spaced (lead ++ (trimBy isBlank text.toList ++ trail)) := by
          rw [← List.append_assoc, ← whole]
      _ = lead ++ (spaced (trimBy isBlank text.toList) ++ spaced trail) := by
          rw [spaced_lead leading, spaced, List.flatMap_append]
          rfl
      _ = lead ++ (spaced (trimBy isBlank text.toList) ++ trail) := by rw [behind]
  rw [conditionWords, conditionWords, parts, runsFrom_lead leading, runsFrom_trail trailing, trim,
    String.toList_ofList, trimChars]

/-- A parenthesis in front of a text is a word. -/
theorem conditionRuns_mark {mark : String} (listed : mark ∈ ["(", ")"]) (rest : List Char) :
    runsFrom isBlank [] (spaced (mark.toList ++ rest)) =
      mark.toList :: runsFrom isBlank [] (spaced rest) := by
  have cut : isBlank ' ' = true := rfl
  rcases List.mem_pair.mp listed with rfl | rfl
  · exact runsFrom_append cut [] [' ', '('] (spaced rest)
  · exact runsFrom_append cut [] [' ', ')'] (spaced rest)

/-- A word in front of a blank or a parenthesis is read as one. -/
theorem conditionRuns_word (valid : IsWord word) {rest : List Char}
    (apart : ∀ c ∈ rest.head?, ¬ IsInside c) :
    runsFrom isBlank [] (spaced (word.toList ++ rest)) =
      word.toList :: runsFrom isBlank [] (spaced rest) := by
  have whole : runsFrom isBlank [] word.toList = [word.toList] :=
    runsFrom_whole [] word.toList (fun c belongs => (valid.inside c belongs).1)
      (.inr (by simpa using valid.some))
  have split : spaced (word.toList ++ rest) = word.toList ++ spaced rest := by
    rw [spaced, List.flatMap_append]
    exact congrArg (· ++ spaced rest) (spaced_plain fun c belongs => (valid.inside c belongs).2)
  rw [split]
  cases rest with
  | nil =>
    rw [spaced, List.flatMap_nil, List.append_nil, whole]
    rfl
  | cons c others =>
    obtain ⟨mark, after, blank, starts⟩ := spaced_outside (apart c rfl) others
    have skipped : runsFrom isBlank [] (mark :: after) = runsFrom isBlank [] after :=
      @runsFrom_lead _ [mark] (by simpa using blank) after
    rw [starts, runsFrom_append blank, whole, skipped, List.singleton_append]

/-- Words that are laid out in a text are read from it. -/
theorem Layout.conditionWords {text : List Char} (laid : Layout words text)
    (valid : ∀ word ∈ words, word ∈ ["(", ")"] ∨ IsWord word) :
    (runsFrom isBlank [] (spaced text)).map String.ofList = words := by
  induction laid with
  | @done gap blank =>
    have lead := runsFrom_lead blank []
    have none := spaced_lead blank []
    rw [List.append_nil] at lead none
    rw [none, spaced, List.flatMap_nil, List.append_nil, lead]
    rfl
  | @word gap rest word words blank apart laid ih =>
    obtain ⟨own, others⟩ := List.forall_mem_cons.mp valid
    have first : runsFrom isBlank [] (spaced (word.toList ++ rest)) =
        word.toList :: runsFrom isBlank [] (spaced rest) := by
      by_cases mark : word ∈ ["(", ")"]
      · exact conditionRuns_mark mark rest
      · exact conditionRuns_word (own.resolve_left mark) (apart.resolve_left mark)
    rw [List.append_assoc, spaced_lead blank, runsFrom_lead blank, first, List.map_cons,
      String.ofList_toList, ih others]

/-- The text spells a condition: its words are laid out there. -/
def SpeltIn (text : String) (condition : Condition) : Prop :=
  ∃ words, Spells 1 words condition ∧ Layout words text.toList

namespace SpeltIn

variable {text : String}

/-- A text in which a condition is spelt is brought into the postfix order of the condition. -/
theorem postfixFrom (spelt : SpeltIn text condition) :
    postfixFrom [] (terms (trim text)) = .ok condition.steps := by
  obtain ⟨words, spells, laid⟩ := spelt
  obtain ⟨terms, parts, stands⟩ := spells.standsFor
  have read : conditionWords text = words := laid.conditionWords spells.isWord
  have whole : termsOf words = terms := by
    simpa [termsOf] using parts [] (by simp [Ends])
  rw [terms_eq, conditionWords_trim, read, whole]
  exact stands.postfixFrom

theorem valid_targets (spelt : SpeltIn text condition) :
    ∀ target ∈ condition.targets, target.Valid := by
  obtain ⟨words, spells, _⟩ := spelt
  exact spells.valid_targets

theorem trim_isEmpty (spelt : SpeltIn text condition) : (trim text).isEmpty = false := by
  by_contra empty
  have none : trim text = "" := by simpa using empty
  have order := spelt.postfixFrom
  rw [none] at order
  have steps : ([] : List Step) = condition.steps := Except.ok.inj order
  cases condition <;> simp [Condition.steps] at steps

end SpeltIn

end Detection.Sigma

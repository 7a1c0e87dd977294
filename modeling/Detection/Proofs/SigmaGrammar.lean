import Detection.Language.Sigma.Condition
import Detection.Proofs.Infix

/-!
# The grammar of Sigma conditions

A condition over names is an OR of ANDs of factors, where a factor is a name, NOT in
front of a factor, or a condition between parentheses. The grammar is a relation between
the parts of a condition and its expression. The expression is determined by the parts:
the postfix order into which a condition is brought is that of the expression, and an
expression can be rebuilt from its postfix order.
-/
namespace Detection.Sigma

open Text

/-- A condition over names. -/
inductive Expression
  | name (block : String)
  | not (operand : Expression)
  | and (left right : Expression)
  | or (left right : Expression)
  deriving DecidableEq, Repr

variable {rank : Nat} {waiting : List Waiting} {expression : Expression} {text : String}
  {next : Junctor}

namespace Expression

/-- Whether a condition holds when some names do. -/
def value (holds : String → Bool) : Expression → Bool
  | name block => holds block
  | not operand => !operand.value holds
  | and left right => left.value holds && right.value holds
  | or left right => left.value holds || right.value holds

/-- The names in a condition from left to right. -/
def names : Expression → List String
  | name block => [block]
  | not operand => operand.names
  | and left right => left.names ++ right.names
  | or left right => left.names ++ right.names

/-- The postfix order of a condition. -/
def steps : Expression → List Step
  | name block => [.name block]
  | not operand => operand.steps ++ [.apply .not]
  | and left right => left.steps ++ right.steps ++ [.apply .and]
  | or left right => left.steps ++ right.steps ++ [.apply .or]

/-- Build expressions from steps in postfix order, on top of those built before. -/
def rebuild (built : List Expression) : List Step → Option (List Expression)
  | [] => some built
  | .name block :: rest => rebuild (.name block :: built) rest
  | .quantified .. :: _ => none
  | .apply .not :: rest =>
    match built with
    | operand :: others => rebuild (.not operand :: others) rest
    | [] => none
  | .apply .and :: rest =>
    match built with
    | right :: left :: others => rebuild (.and left right :: others) rest
    | _ => none
  | .apply .or :: rest =>
    match built with
    | right :: left :: others => rebuild (.or left right :: others) rest
    | _ => none

/-- The steps of an expression build that expression. -/
theorem rebuild_steps (expression : Expression) (built : List Expression) (rest : List Step) :
    rebuild built (expression.steps ++ rest) = rebuild (expression :: built) rest := by
  induction expression generalizing built rest with
  | name => rfl
  | not operand ih =>
    rw [steps, List.append_assoc, ih]
    rfl
  | and left right ihLeft ihRight =>
    rw [steps, List.append_assoc, List.append_assoc, ihLeft, ihRight]
    rfl
  | or left right ihLeft ihRight =>
    rw [steps, List.append_assoc, List.append_assoc, ihLeft, ihRight]
    rfl

theorem steps_injective {first second : Expression} (same : first.steps = second.steps) :
    first = second := by
  have firstBuilt := rebuild_steps first [] []
  have secondBuilt := rebuild_steps second [] []
  rw [same, secondBuilt] at firstBuilt
  simpa [rebuild] using firstBuilt.symm

end Expression

/-- The parts of a condition and its expression, by how tightly it is bound: an OR at
rank one, an AND at rank two, a factor at rank three. AND and OR take what stands on
their left first. -/
inductive Reads : Nat → List Term → Expression → Prop
  | name (block : String) : Reads 3 [.name block] (.name block)
  | enclosed {terms : List Term} {inner : Expression} (reads : Reads 1 terms inner) :
      Reads 3 (.opening :: (terms ++ [.closing])) inner
  | not {terms : List Term} {operand : Expression} (reads : Reads 3 terms operand) :
      Reads 3 (.junctor .not :: terms) (.not operand)
  | and {terms others : List Term} {left right : Expression} (reads : Reads 2 terms left)
      (readsRight : Reads 3 others right) :
      Reads 2 (terms ++ .junctor .and :: others) (.and left right)
  | or {terms others : List Term} {left right : Expression} (reads : Reads 1 terms left)
      (readsRight : Reads 2 others right) :
      Reads 1 (terms ++ .junctor .or :: others) (.or left right)
  | factor {terms : List Term} {expression : Expression} (reads : Reads 3 terms expression) :
      Reads 2 terms expression
  | product {terms : List Term} {expression : Expression} (reads : Reads 2 terms expression) :
      Reads 1 terms expression

/-- Nothing on top of the waiting words binds as tightly as a rank. -/
def Looser (rank : Nat) : List Waiting → Prop
  | .junctor junctor :: _ => junctor.rank < rank
  | _ => True

/-- A word releases the waiting ones that bind at least as tightly, down to one that
binds less tightly. -/
theorem release_pending {pending : List Junctor}
    (tight : ∀ junctor ∈ pending, next.rank ≤ junctor.rank) (loose : Looser next.rank waiting) :
    release next (pending.map .junctor ++ waiting) = (pending.map .apply, waiting) := by
  induction pending with
  | nil =>
    match waiting with
    | [] => rfl
    | .opening :: _ => rfl
    | .junctor junctor :: rest =>
      have kept : ¬ next.rank ≤ junctor.rank := Nat.not_le.mpr loose
      simp [release, kept]
  | cons junctor others ih =>
    have released : next.rank ≤ junctor.rank := tight junctor List.mem_cons_self
    have tail := ih
      fun other belongs => tight other (List.mem_cons_of_mem _ belongs)
    simp [release, released, tail]

/-- A closing parenthesis releases the waiting words up to its partner. -/
theorem close_pending (pending : List Junctor) (waiting : List Waiting) :
    close (pending.map .junctor ++ .opening :: waiting) = some (pending.map .apply, waiting) := by
  induction pending with
  | nil => rfl
  | cons junctor others ih => simp [close, ih]

theorem finish_pending (pending : List Junctor) :
    finish (pending.map .junctor) = some (pending.map .apply) := by
  induction pending with
  | nil => rfl
  | cons junctor others ih => simp [finish, ih]

/-- Steps that are written in two parts. -/
theorem map_append (result : Except Char (List Step)) (first second : List Step) :
    (result.map (second ++ ·)).map (first ++ ·) = result.map (first ++ second ++ ·) := by
  cases result <;> simp [Except.map]

/-- Reading a word that joins two operands. -/
theorem postfixFrom_junctor (binary : next ≠ .not) {pending : List Junctor}
    (tight : ∀ junctor ∈ pending, next.rank ≤ junctor.rank) (loose : Looser next.rank waiting)
    (rest : List Term) :
    postfixFrom (pending.map .junctor ++ waiting) (.junctor next :: rest) =
      (postfixFrom (.junctor next :: waiting) rest).map (pending.map .apply ++ ·) := by
  cases next with
  | not => contradiction
  | and | or =>
    simp only [postfixFrom, release_pending tight loose]
    cases postfixFrom _ rest <;> rfl

/-- What reading some parts does to the waiting words: steps are written, and words that bind
at least as tightly as a rank are left waiting on top. Together they are the steps that the
parts stand for. -/
def Emits (waiting : List Waiting) (rank : Nat) (terms : List Term) (steps : List Step) : Prop :=
  ∃ (written : List Step) (pending : List Junctor), (∀ junctor ∈ pending, rank ≤ junctor.rank) ∧
    written ++ pending.map .apply = steps ∧
    ∀ rest, postfixFrom waiting (terms ++ rest) =
      (postfixFrom (pending.map .junctor ++ waiting) rest).map (written ++ ·)

namespace Emits

theorem name (waiting : List Waiting) (block : String) :
    Emits waiting 3 [.name block] [.name block] :=
  ⟨[.name block], [], by simp, rfl, fun _ => rfl⟩

/-- A quantifier is its own step. -/
theorem quantified (waiting : List Waiting) (number target : String) :
    Emits waiting 3 [.quantified number target] [.quantified number target] :=
  ⟨[.quantified number target], [], by simp, rfl, fun _ => rfl⟩

/-- Nothing waits of what stands between parentheses. -/
theorem enclosed {terms : List Term} {steps : List Step}
    (emits : Emits (.opening :: waiting) 1 terms steps) :
    Emits waiting 3 (.opening :: (terms ++ [.closing])) steps := by
  obtain ⟨written, pending, _, same, read⟩ := emits
  refine ⟨steps, [], by simp, by simp, fun rest => ?_⟩
  have opened := read (.closing :: rest)
  rw [postfixFrom, close_pending] at opened
  have closed : (do return pending.map Step.apply ++ (← postfixFrom waiting rest)) =
      (postfixFrom waiting rest).map (pending.map Step.apply ++ ·) := by
    cases postfixFrom waiting rest <;> rfl
  simp only [closed, map_append, same] at opened
  simpa [postfixFrom] using opened

/-- NOT waits below what waits of its operand. -/
theorem not {terms : List Term} {steps : List Step}
    (emits : Emits (.junctor .not :: waiting) 3 terms steps) :
    Emits waiting 3 (.junctor .not :: terms) (steps ++ [.apply .not]) := by
  obtain ⟨written, pending, tight, same, read⟩ := emits
  refine ⟨written, pending ++ [.not], ?_, ?_, fun rest => ?_⟩
  · exact List.forall_mem_append.mpr ⟨tight, by simp [Junctor.rank]⟩
  · simp only [← same, List.map_append, List.append_assoc, List.map_singleton]
  · simpa [postfixFrom] using read rest

/-- Two operands and the word between them. The word goes below what waits of the second
operand and above what waited before the first one. -/
theorem join (binary : next ≠ .not) {terms others : List Term} {left right : List Step}
    (loose : Looser next.rank waiting) (first : Emits waiting next.rank terms left)
    (second : Emits (.junctor next :: waiting) rank others right) (tighter : next.rank ≤ rank) :
    Emits waiting next.rank (terms ++ .junctor next :: others)
      (left ++ right ++ [.apply next]) := by
  obtain ⟨written, pending, tight, steps, read⟩ := first
  obtain ⟨writtenRight, pendingRight, tightRight, stepsRight, readRight⟩ := second
  refine ⟨written ++ pending.map .apply ++ writtenRight, pendingRight ++ [next], ?_, ?_, ?_⟩
  · exact List.forall_mem_append.mpr
      ⟨fun junctor earlier => Nat.le_trans tighter (tightRight junctor earlier), by simp⟩
  · simp only [List.map_append, ← stepsRight, ← steps, List.append_assoc, List.map_singleton]
  · intro rest
    rw [List.append_assoc, List.cons_append, read, postfixFrom_junctor binary tight loose,
      readRight, map_append, map_append]
    simp

/-- What is bound tightly is bound less tightly as well. -/
theorem loosen {terms : List Term} {steps : List Step}
    (emits : Emits waiting (rank + 1) terms steps) : Emits waiting rank terms steps := by
  obtain ⟨written, pending, tight, same, read⟩ := emits
  exact ⟨written, pending, fun junctor belongs => Nat.le_of_succ_le (tight junctor belongs), same,
    read⟩

/-- The end of the parts writes all that waits. -/
theorem postfixFrom {terms : List Term} {steps : List Step} (emits : Emits [] rank terms steps) :
    postfixFrom [] terms = .ok steps := by
  obtain ⟨written, pending, _, same, read⟩ := emits
  have ends := read []
  rw [List.append_nil, List.append_nil, Sigma.postfixFrom, finish_pending] at ends
  rw [ends, ← same]
  rfl

end Emits

theorem Looser.tighten (loose : Looser rank waiting) : Looser (rank + 1) waiting := by
  match waiting with
  | [] => trivial
  | .opening :: _ => trivial
  | .junctor junctor :: _ => exact Nat.lt_succ_of_lt loose

/-- Parts that stand for some steps wherever they are read. A factor never releases what waits
before it; an AND or an OR needs something looser on top. -/
def StandsFor (rank : Nat) (terms : List Term) (steps : List Step) : Prop :=
  ∀ waiting, rank = 3 ∨ Looser rank waiting → Emits waiting rank terms steps

namespace StandsFor

variable {terms others : List Term} {steps left right : List Step}

theorem enclosed (inner : StandsFor 1 terms steps) :
    StandsFor 3 (.opening :: (terms ++ [.closing])) steps :=
  fun waiting _ => Emits.enclosed (inner (.opening :: waiting) (.inr trivial))

theorem not (operand : StandsFor 3 terms steps) :
    StandsFor 3 (.junctor .not :: terms) (steps ++ [.apply .not]) :=
  fun waiting _ => Emits.not (operand (.junctor .not :: waiting) (.inl rfl))

/-- An AND with a factor on its right. -/
theorem and (first : StandsFor 2 terms left) (second : StandsFor 3 others right) :
    StandsFor 2 (terms ++ .junctor .and :: others) (left ++ right ++ [.apply .and]) := by
  intro waiting loose
  have top : Looser 2 waiting := loose.resolve_left (by decide)
  have binary : Junctor.and ≠ .not := by decide
  exact Emits.join binary top (first waiting (.inr top))
    (second (.junctor .and :: waiting) (.inl rfl)) (by decide)

/-- An OR with a product on its right. -/
theorem or (first : StandsFor 1 terms left) (second : StandsFor 2 others right) :
    StandsFor 1 (terms ++ .junctor .or :: others) (left ++ right ++ [.apply .or]) := by
  intro waiting loose
  have top : Looser 1 waiting := loose.resolve_left (by decide)
  have binary : Junctor.or ≠ .not := by decide
  have tighter : Looser 2 (.junctor .or :: waiting) := (by decide : (1 : Nat) < 2)
  exact Emits.join binary top (first waiting (.inr top))
    (second (.junctor .or :: waiting) (.inr tighter)) (by decide)

theorem factor (whole : StandsFor 3 terms steps) : StandsFor 2 terms steps :=
  fun waiting _ => Emits.loosen (whole waiting (.inl rfl))

theorem product (whole : StandsFor 2 terms steps) : StandsFor 1 terms steps := by
  intro waiting loose
  have top : Looser 1 waiting := loose.resolve_left (by decide)
  exact Emits.loosen (whole waiting (.inr top.tighten))

theorem postfixFrom (whole : StandsFor 1 terms steps) : postfixFrom [] terms = .ok steps :=
  Emits.postfixFrom (whole [] (.inr trivial))

end StandsFor

theorem Reads.standsFor {terms : List Term} (reads : Reads rank terms expression) :
    StandsFor rank terms expression.steps := by
  induction reads with
  | name block => exact fun waiting _ => Emits.name waiting block
  | enclosed reads ih => exact ih.enclosed
  | not reads ih => exact ih.not
  | and reads readsRight ihLeft ihRight => exact ihLeft.and ihRight
  | or reads readsRight ihLeft ihRight => exact ihLeft.or ihRight
  | factor reads ih => exact ih.factor
  | product reads ih => exact ih.product

theorem Reads.terms_ne_nil {terms : List Term} (reads : Reads rank terms expression) :
    terms ≠ [] := by
  induction reads with
  | name | enclosed | not | and | or => simp
  | factor reads ih => exact ih
  | product reads ih => exact ih

/-- The postfix order of a condition is that of its expression. -/
theorem Reads.postfixFrom {terms : List Term} (reads : Reads 1 terms expression) :
    postfixFrom [] terms = .ok expression.steps :=
  reads.standsFor.postfixFrom

/-- A condition has one expression only. -/
theorem Reads.unique {terms : List Term} {first second : Expression}
    (reads : Reads 1 terms first) (other : Reads 1 terms second) : first = second := by
  have same : Except.ok first.steps = (Except.ok second.steps : Except Char (List Step)) :=
    reads.postfixFrom.symm.trans other.postfixFrom
  exact Expression.steps_injective (Except.ok.inj same)

/-- The characters of a condition with blanks around its parentheses. -/
def spaced (text : List Char) : List Char :=
  text.flatMap fun c => if c == '(' || c == ')' then [' ', c, ' '] else [c]

theorem spaced_plain {text : List Char} (inside : ∀ c ∈ text, c ≠ '(' ∧ c ≠ ')') :
    spaced text = text := by
  induction text with
  | nil => rfl
  | cons c rest ih =>
    have tail := ih
      fun other belongs => inside other (List.mem_cons_of_mem _ belongs)
    have own : (c == '(' || c == ')') = false := by simp [inside c List.mem_cons_self]
    rw [spaced, List.flatMap_cons, own]
    exact congrArg (c :: ·) tail

/-- The words of a condition, parentheses included. -/
def conditionWords (text : String) : List String :=
  (runsFrom isBlank [] (spaced text.toList)).map String.ofList

theorem terms_eq (text : String) : terms text = termsOf (conditionWords text) := by
  simp [terms, words, conditionWords, spaced]

/-- A blank parts the words of a condition. -/
theorem conditionWords_blank (before after : String) :
    conditionWords (before ++ " " ++ after) = conditionWords before ++ conditionWords after := by
  have cut : isBlank ' ' = true := rfl
  have parts : spaced (before ++ " " ++ after).toList =
      spaced before.toList ++ ' ' :: spaced after.toList := by
    simp [spaced]
  rw [conditionWords, parts, runsFrom_append cut, List.map_append]
  rfl

theorem conditionWords_enclosed (text : String) :
    conditionWords ("(" ++ text ++ ")") = "(" :: (conditionWords text ++ [")"]) := by
  have cut : isBlank ' ' = true := rfl
  have parts : spaced ("(" ++ text ++ ")").toList =
      [' ', '('] ++ ' ' :: (spaced text.toList ++ ' ' :: [')', ' ']) := by
    simp [spaced]
  rw [conditionWords, parts, runsFrom_append cut, runsFrom_append cut]
  simp only [List.map_append]
  rfl

/-- A name without blanks and parentheses is one word. -/
theorem conditionWords_name {name : String} (some : name ≠ "")
    (inside : ∀ c ∈ name.toList, isBlank c = false ∧ c ≠ '(' ∧ c ≠ ')') :
    conditionWords name = [name] := by
  have same : spaced name.toList = name.toList :=
    spaced_plain fun c belongs => (inside c belongs).2
  rw [conditionWords, same, runsFrom_whole [] _ (fun c belongs => (inside c belongs).1)
    (.inr (by simpa using some))]
  simp

/-- A word is a part of its own unless it is the number of a quantifier and `of` comes next. -/
theorem termsOf_cons {word : String} {rest : List String}
    (plain : isQuantifier word = false ∨ ∀ next ∈ rest.head?, equalFold next "of" = false) :
    termsOf (word :: rest) = termOf word :: termsOf rest := by
  match rest with
  | [] => rfl
  | [next] => rfl
  | next :: target :: others =>
    have other : (isQuantifier word && equalFold next "of") = false := by
      rcases plain with plain | plain
      · rw [plain, Bool.false_and]
      · rw [plain next rfl, Bool.and_false]
    rw [termsOf, other]
    rfl

/-- Words without a quantifier are parts of their own. -/
theorem termsOf_plain {words : List String} (plain : ∀ word ∈ words, isQuantifier word = false) :
    termsOf words = words.map termOf := by
  induction words with
  | nil => rfl
  | cons word rest ih =>
    obtain ⟨own, others⟩ := List.forall_mem_cons.mp plain
    rw [termsOf_cons (.inl own), ih others, List.map_cons]

/-- The text is a condition without quantifiers, at a rank and with an expression. -/
structure Written (rank : Nat) (text : String) (expression : Expression) : Prop where
  plain : ∀ word ∈ conditionWords text, isQuantifier word = false
  reads : Reads rank ((conditionWords text).map termOf) expression

namespace Written

theorem ne_empty (written : Written rank text expression) : text ≠ "" := by
  rintro rfl
  exact written.reads.terms_ne_nil rfl

theorem reads_terms (written : Written rank text expression) :
    Reads rank (terms text) expression := by
  rw [terms_eq, termsOf_plain written.plain]
  exact written.reads

theorem loosen (written : Written 3 text expression) : Written 1 text expression :=
  ⟨written.plain, .product (.factor written.reads)⟩

theorem not {operand : Expression} (written : Written 3 text operand) :
    Written 3 ("not " ++ text) (.not operand) := by
  have words : conditionWords ("not " ++ text) = "not" :: conditionWords text := by
    have parts := conditionWords_blank "not" text
    have word : conditionWords "not" = ["not"] := rfl
    rw [word] at parts
    simpa using parts
  constructor
  · rw [words, List.forall_mem_cons]
    exact ⟨rfl, written.plain⟩
  · rw [words, List.map_cons]
    exact .not written.reads

theorem enclosed (written : Written 1 text expression) :
    Written 3 ("(" ++ text ++ ")") expression := by
  constructor
  · rw [conditionWords_enclosed, List.forall_mem_cons, List.forall_mem_append]
    exact ⟨rfl, written.plain, by simp; rfl⟩
  · rw [conditionWords_enclosed, List.map_cons, List.map_append]
    exact .enclosed written.reads

end Written

/-- The rank of what a connective joins on its left. -/
def connectiveRank : Connective → Nat
  | .and => 2
  | .or => 1

def connectiveWord : Connective → String
  | .and => "and"
  | .or => "or"

/-- Two expressions that a connective joins. -/
def Expression.joined : Connective → Expression → Expression → Expression
  | .and => .and
  | .or => .or

namespace Written

/-- A factor behind what it is joined to. -/
theorem join_factor {connective : Connective} {part : String} {left right : Expression}
    (written : Written (connectiveRank connective) text left) (factor : Written 3 part right) :
    Written (connectiveRank connective) (text ++ (" " ++ connectiveWord connective ++ " ") ++ part)
      (.joined connective left right) := by
  have word : conditionWords (connectiveWord connective) = [connectiveWord connective] := by
    cases connective <;> rfl
  have words : conditionWords (text ++ (" " ++ connectiveWord connective ++ " ") ++ part) =
      conditionWords text ++ connectiveWord connective :: conditionWords part := by
    have behind := conditionWords_blank (connectiveWord connective) part
    have whole := conditionWords_blank text (connectiveWord connective ++ " " ++ part)
    rw [behind, word] at whole
    simpa [String.append_assoc] using whole
  constructor
  · rw [words, List.forall_mem_append, List.forall_mem_cons]
    exact ⟨written.plain, by cases connective <;> rfl, factor.plain⟩
  · rw [words, List.map_append, List.map_cons]
    cases connective with
    | and => exact .and written.reads factor.reads
    | or => exact .or written.reads (.factor factor.reads)

/-- Factors behind what they are joined to, one after another. -/
theorem foldl_factors {connective : Connective} {parts : List String}
    {expressions : List Expression} (factors : List.Forall₂ (Written 3) parts expressions)
    {left : Expression} (written : Written (connectiveRank connective) text left) :
    ∃ expression, Written (connectiveRank connective)
        (parts.foldl (fun text part => text ++ (" " ++ connectiveWord connective ++ " ") ++ part)
          text) expression ∧
      expression.names = left.names ++ expressions.flatMap Expression.names ∧
      ∀ holds, expression.value holds =
        connective.valueOf (left.value holds :: expressions.map (Expression.value holds)) := by
  induction factors generalizing text left with
  | nil => exact ⟨left, written, by simp, by simp⟩
  | @cons part right parts expressions factor factors ih =>
    obtain ⟨expression, whole, names, value⟩ := ih (written.join_factor factor)
    refine ⟨expression, whole, ?_, fun holds => ?_⟩
    · rw [names]
      cases connective <;> simp [Expression.joined, Expression.names]
    · have joined : (Expression.joined connective left right).value holds =
          connective.apply (left.value holds) (right.value holds) := by
        cases connective <;> rfl
      rw [value, joined, Connective.valueOf_apply, List.map_cons]

/-- Joined factors are a condition over the names of all and with the value that the
connective makes of their values. -/
theorem join_factors (connective : Connective) {parts : List String}
    {expressions : List Expression} (factors : List.Forall₂ (Written 3) parts expressions)
    (some : parts ≠ []) :
    ∃ expression, Written 1 (join (" " ++ connectiveWord connective ++ " ") parts) expression ∧
      expression.names = expressions.flatMap Expression.names ∧
      ∀ holds, expression.value holds =
        connective.valueOf (expressions.map (Expression.value holds)) := by
  cases factors with
  | nil => contradiction
  | @cons part first parts expressions factor factors =>
    have start : Written (connectiveRank connective) part first := by
      cases connective with
      | and => exact ⟨factor.plain, .factor factor.reads⟩
      | or => exact factor.loosen
    obtain ⟨expression, whole, names, value⟩ := foldl_factors factors start
    rw [← join_eq_foldl] at whole
    refine ⟨expression, ?_, by simpa using names, by simpa using value⟩
    cases connective with
    | and => exact ⟨whole.plain, .product whole.reads⟩
    | or => exact whole

end Written

end Detection.Sigma

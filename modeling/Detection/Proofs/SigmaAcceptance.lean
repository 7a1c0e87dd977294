import Detection.Proofs.SigmaExpansion

/-!
# Which Sigma conditions are accepted

A condition is meant to be written in infix order: an operand is a known selection, a
quantifier, a condition between parentheses or NOT in front of a condition, and AND or OR stands
between two conditions. Nothing reads this grammar. The parts are brought into postfix order, in
which parentheses are checked, and the postfix order is carried out on a stack, in which operands
are counted.

This module says what these two checks amount to. A condition is accepted exactly if its postfix
order follows the postfix grammar. It follows the infix grammar exactly if it is accepted and its
operands and operators alternate. Only the alternation is not checked, so that conditions such as
`a b and`, `a not` and `() a` are accepted as well.
-/
namespace Detection.Sigma

open Text

variable {steps : List Step} {tokens : List Token} {waiting : List Waiting} {text : String}
  {term : Term}

/-- The parts of a condition that follow the infix grammar over some selections. The grammar is
ambiguous: it leaves open how tightly NOT, AND and OR bind. -/
inductive Derives (selections : Selections) : List Term → Prop
  | name {name : String} {tokens : List Token}
      (found : selections.tokens.lookup name = some tokens) : Derives selections [.name name]
  | quantified (connective : Connective) {target : String}
      (found : selections.matching target ≠ []) :
      Derives selections [.quantified (quantifierWord connective) target]
  | enclosed {terms : List Term} (inner : Derives selections terms) :
      Derives selections (.opening :: (terms ++ [.closing]))
  | not {terms : List Term} (operand : Derives selections terms) :
      Derives selections (.junctor .not :: terms)
  | join (connective : Connective) {terms others : List Term} (left : Derives selections terms)
      (right : Derives selections others) :
      Derives selections (terms ++ .junctor (junctorOf connective) :: others)

/-- The steps that follow the postfix grammar over some selections, and the tokens that they
build. -/
inductive Yields (selections : Selections) : List Step → List Token → Prop
  | name {name : String} {tokens : List Token}
      (found : selections.tokens.lookup name = some tokens) :
      Yields selections [.name name] (Sigma.enclosed tokens)
  | quantified (connective : Connective) {target : String}
      (found : selections.matching target ≠ []) :
      Yields selections [.quantified (quantifierWord connective) target]
        (Sigma.enclosed (joinTokens connective.token ((selections.matching target).map fun name =>
          Sigma.enclosed ((selections.tokens.lookup name).getD []))))
  | not {steps : List Step} {tokens : List Token} (operand : Yields selections steps tokens) :
      Yields selections (steps ++ [.apply .not]) (Sigma.enclosed (.not :: tokens))
  | join (connective : Connective) {steps others : List Step} {first second : List Token}
      (left : Yields selections steps first) (right : Yields selections others second) :
      Yields selections (steps ++ others ++ [.apply (junctorOf connective)])
        (Sigma.enclosed (first ++ connective.token :: second))

variable {selections : Selections}

/-- Carrying out the steps of the postfix grammar puts the tokens that they build on the stack. -/
theorem Yields.run (yields : Yields selections steps tokens) (text : String)
    (operands : List (List Token)) :
    steps.foldlM (applyStep text selections) operands = .ok (tokens :: operands) := by
  induction yields generalizing operands with
  | name found =>
    rw [List.foldlM_cons, applyStep, found]
    rfl
  | quantified connective found =>
    rw [List.foldlM_cons, applyStep, quantifiedTokens_eq text selections connective found]
    rfl
  | not operand ih =>
    rw [List.foldlM_append, ih]
    rfl
  | join connective left right ihLeft ihRight =>
    rw [List.foldlM_append, List.foldlM_append, ihLeft]
    simp only [bind, Except.bind, ihRight]
    cases connective <;> rfl

/-- A quantifier gives tokens only if it counts one or all and matches a selection. -/
theorem exists_of_quantifiedTokens {number target : String}
    (quantifies : quantifiedTokens text selections number target = .ok tokens) :
    ∃ connective, number = quantifierWord connective ∧ selections.matching target ≠ [] := by
  unfold quantifiedTokens at quantifies
  have present : selections.matching target ≠ [] := by
    intro none
    rw [none] at quantifies
    split at quantifies <;> cases quantifies
  split at quantifies
  · exact ⟨.and, rfl, present⟩
  · exact ⟨.or, rfl, present⟩
  · cases quantifies

/-- AND and OR find two groups on the stack and leave one. -/
theorem exists_of_applyStep_join (connective : Connective) {operands next : List (List Token)}
    (applied : applyStep text selections operands (.apply (junctorOf connective)) = .ok next) :
    ∃ first second rest, operands = second :: first :: rest ∧
      next = enclosed (first ++ connective.token :: second) :: rest := by
  rcases operands with _ | ⟨second, _ | ⟨first, rest⟩⟩
  · cases connective <;> cases applied
  · cases connective <;> cases applied
  · refine ⟨first, second, rest, rfl, ?_⟩
    cases connective <;> exact (Except.ok.inj applied).symm

/-- A stack of token groups, the last one first, and the steps that build them. -/
inductive Stacked (selections : Selections) : List Step → List (List Token) → Prop
  | empty : Stacked selections [] []
  | push {steps more : List Step} {operands : List (List Token)} {tokens : List Token}
      (below : Stacked selections steps operands) (yields : Yields selections more tokens) :
      Stacked selections (steps ++ more) (tokens :: operands)

namespace Stacked

variable {operands : List (List Token)}

/-- AND and OR take two groups from the stack. -/
theorem join (connective : Connective) {first second : List Token}
    (stacked : Stacked selections steps (second :: first :: operands)) :
    Stacked selections (steps ++ [.apply (junctorOf connective)])
      (enclosed (first ++ connective.token :: second) :: operands) := by
  cases stacked with
  | push below right =>
    cases below with
    | push below left =>
      have joined := below.push (left.join connective right)
      simpa only [List.append_assoc] using joined

/-- One step turns a stack with the steps that built it into another one. -/
theorem applyStep {step : Step} {next : List (List Token)}
    (stacked : Stacked selections steps operands)
    (applied : applyStep text selections operands step = .ok next) :
    Stacked selections (steps ++ [step]) next := by
  cases step with
  | name name =>
    rw [Sigma.applyStep] at applied
    split at applied
    · next tokens found =>
      cases applied
      exact stacked.push (.name found)
    · cases applied
  | quantified =>
    obtain ⟨tokens, quantifies, pushed⟩ := exists_of_bind applied
    obtain ⟨connective, rfl, found⟩ := exists_of_quantifiedTokens quantifies
    rw [quantifiedTokens_eq text selections connective found] at quantifies
    cases quantifies
    cases pushed
    exact stacked.push (.quantified connective found)
  | apply junctor =>
    cases junctor with
    | not =>
      cases stacked with
      | empty => cases applied
      | push below yields =>
        cases applied
        rw [List.append_assoc]
        exact below.push yields.not
    | and =>
      obtain ⟨first, second, rest, rfl, rfl⟩ := exists_of_applyStep_join .and applied
      exact stacked.join .and
    | or =>
      obtain ⟨first, second, rest, rfl, rfl⟩ := exists_of_applyStep_join .or applied
      exact stacked.join .or

/-- A run of steps turns a stack with the steps that built it into another one. -/
theorem run {more : List Step} {result : List (List Token)}
    (stacked : Stacked selections steps operands)
    (done : more.foldlM (Sigma.applyStep text selections) operands = .ok result) :
    Stacked selections (steps ++ more) result := by
  induction more generalizing steps operands with
  | nil =>
    cases done
    simpa using stacked
  | cons step rest ih =>
    rw [List.foldlM_cons] at done
    obtain ⟨next, applied, later⟩ := exists_of_bind done
    simpa using ih (stacked.applyStep applied) later

theorem yields (stacked : Stacked selections steps [tokens]) : Yields selections steps tokens := by
  cases stacked with
  | push below yields =>
    cases below
    exact yields

end Stacked

/-- The postfix grammar is what leaves a single group on the stack. -/
theorem yields_iff_run (text : String) (steps : List Step) (tokens : List Token) :
    Yields selections steps tokens ↔
      steps.foldlM (applyStep text selections) [] = .ok [tokens] :=
  ⟨fun yields => yields.run text [], fun done => (Stacked.empty.run done).yields⟩

theorem Yields.steps_ne_nil (yields : Yields selections steps tokens) : steps ≠ [] := by
  cases yields <;> simp

/-- A condition is accepted exactly if its postfix order follows the postfix grammar. -/
theorem expand_eq_ok (text : String) (tokens : List Token) :
    expand selections text = .ok tokens ↔
      ∃ steps, postfixFrom [] (terms (trim text)) = .ok steps ∧ Yields selections steps tokens := by
  constructor
  · intro expanded
    unfold expand at expanded
    by_cases empty : (trim text).isEmpty
    · simp only [empty, ↓reduceIte] at expanded
      cases expanded
    simp only [empty, Bool.false_eq_true, ↓reduceIte] at expanded
    obtain ⟨steps, ordered, rest⟩ := exists_of_bind expanded
    obtain ⟨operands, done, last⟩ := exists_of_bind rest
    refine ⟨steps, mapError_ok ordered, ?_⟩
    split at last
    · cases last
      exact (yields_iff_run (trim text) steps tokens).mpr done
    · cases last
  · rintro ⟨steps, ordered, yields⟩
    have written : (trim text).isEmpty = false := by
      by_contra empty
      have blank : trim text = "" := by simpa using empty
      have none : postfixFrom [] (terms "") = .ok [] := by decide +kernel
      rw [blank, none] at ordered
      cases ordered
      exact yields.steps_ne_nil rfl
    exact expand_of_steps written ordered (yields.run (trim text) [])

/-- Whether a part can only stand where an operand is expected. -/
def Term.startsOperand : Term → Bool
  | .name _ | .quantified .. | .opening | .junctor .not => true
  | .junctor .and | .junctor .or | .closing => false

/-- Whether an operand ends with a part. -/
def Term.endsOperand : Term → Bool
  | .name _ | .quantified .. | .closing => true
  | .junctor _ | .opening => false

/-- Whether operands and what stands between them alternate, where an operand has just ended or
is expected. -/
def alternates (ended : Bool) : List Term → Bool
  | [] => ended
  | term :: rest => (term.startsOperand != ended) && alternates term.endsOperand rest

/-- The infix grammar puts an operand where one is expected. -/
theorem Derives.alternates_append {terms : List Term} (derives : Derives selections terms)
    (rest : List Term) : alternates false (terms ++ rest) = alternates true rest := by
  induction derives generalizing rest with
  | name | quantified => rfl
  | enclosed inner ih =>
    have within := ih (.closing :: rest)
    simpa [alternates, Term.startsOperand, Term.endsOperand] using within
  | not operand ih =>
    simpa [alternates, Term.startsOperand, Term.endsOperand] using ih rest
  | join connective left right ihLeft ihRight =>
    rw [List.append_assoc, ihLeft, List.cons_append, alternates]
    cases connective <;>
      simpa [junctorOf, Term.startsOperand, Term.endsOperand] using ihRight rest

/-- Parts that stand at a rank for steps of the postfix grammar. -/
def Ranked (selections : Selections) (rank : Nat) (terms : List Term) : Prop :=
  ∃ steps tokens, StandsFor rank terms steps ∧ Yields selections steps tokens

namespace Ranked

variable {terms others : List Term}

theorem enclosed (inner : Ranked selections 1 terms) :
    Ranked selections 3 (.opening :: (terms ++ [.closing])) := by
  obtain ⟨steps, tokens, stands, yields⟩ := inner
  exact ⟨steps, tokens, stands.enclosed, yields⟩

theorem not (operand : Ranked selections 3 terms) :
    Ranked selections 3 (.junctor .not :: terms) := by
  obtain ⟨steps, tokens, stands, yields⟩ := operand
  exact ⟨_, _, stands.not, yields.not⟩

/-- An AND with a factor on its right is a product. -/
theorem and (left : Ranked selections 2 terms) (right : Ranked selections 3 others) :
    Ranked selections 2 (terms ++ .junctor .and :: others) := by
  obtain ⟨steps, tokens, stands, yields⟩ := left
  obtain ⟨otherSteps, otherTokens, standsRight, yieldsRight⟩ := right
  exact ⟨_, _, stands.and standsRight, yields.join .and yieldsRight⟩

/-- An OR with a product on its right is a sum. -/
theorem or (left : Ranked selections 1 terms) (right : Ranked selections 2 others) :
    Ranked selections 1 (terms ++ .junctor .or :: others) := by
  obtain ⟨steps, tokens, stands, yields⟩ := left
  obtain ⟨otherSteps, otherTokens, standsRight, yieldsRight⟩ := right
  exact ⟨_, _, stands.or standsRight, yields.join .or yieldsRight⟩

theorem factor (whole : Ranked selections 3 terms) : Ranked selections 2 terms := by
  obtain ⟨steps, tokens, stands, yields⟩ := whole
  exact ⟨steps, tokens, stands.factor, yields⟩

theorem product (whole : Ranked selections 2 terms) : Ranked selections 1 terms := by
  obtain ⟨steps, tokens, stands, yields⟩ := whole
  exact ⟨steps, tokens, stands.product, yields⟩

end Ranked

/-- A sum by its last product, to which a factor can be joined on the right. -/
inductive Growing (selections : Selections) : List Term → Prop
  | product {terms : List Term} (only : Ranked selections 2 terms) : Growing selections terms
  | or {terms others : List Term} (before : Ranked selections 1 terms)
      (last : Ranked selections 2 others) : Growing selections (terms ++ .junctor .or :: others)

namespace Growing

variable {terms others : List Term}

theorem ranked (growing : Growing selections terms) : Ranked selections 1 terms := by
  cases growing with
  | product only => exact only.product
  | or before last => exact before.or last

/-- AND joins a factor to the last product, and OR starts a product with it. -/
theorem join (connective : Connective) (growing : Growing selections terms)
    (next : Ranked selections 3 others) :
    Growing selections (terms ++ .junctor (junctorOf connective) :: others) := by
  cases connective with
  | or => exact .or growing.ranked next.factor
  | and =>
    cases growing with
    | product only => exact .product (only.and next)
    | or before last =>
      rw [List.append_assoc]
      exact .or before (last.and next)

end Growing

/-- Factors with a connective between each two of them. -/
inductive Chained (selections : Selections) : List Term → Prop
  | last {terms : List Term} (factor : Ranked selections 3 terms) : Chained selections terms
  | link (connective : Connective) {terms others : List Term} (factor : Ranked selections 3 terms)
      (rest : Chained selections others) :
      Chained selections (terms ++ .junctor (junctorOf connective) :: others)

namespace Chained

variable {terms others : List Term}

theorem not (chained : Chained selections terms) :
    Chained selections (.junctor .not :: terms) := by
  cases chained with
  | last factor => exact .last factor.not
  | link connective factor rest => exact .link connective factor.not rest

/-- Two chains with a connective between them are a chain. -/
theorem join (connective : Connective) (left : Chained selections terms)
    (right : Chained selections others) :
    Chained selections (terms ++ .junctor (junctorOf connective) :: others) := by
  induction left with
  | last factor => exact .link connective factor right
  | link between factor rest ih =>
    rw [List.append_assoc]
    exact .link between factor ih

/-- A chain is joined factor by factor to the sum in front of it. -/
theorem growing_append (chained : Chained selections others) (connective : Connective)
    (growing : Growing selections terms) :
    Growing selections (terms ++ .junctor (junctorOf connective) :: others) := by
  induction chained generalizing terms connective with
  | last factor => exact growing.join connective factor
  | link between factor rest ih =>
    have grown := ih between (growing.join connective factor)
    simpa only [List.append_assoc, List.cons_append] using grown

theorem ranked (chained : Chained selections terms) : Ranked selections 1 terms := by
  cases chained with
  | last factor => exact factor.factor.product
  | link connective factor rest =>
    exact (rest.growing_append connective (.product factor.factor)).ranked

end Chained

/-- A condition of the infix grammar is a chain of factors, however it is derived. -/
theorem Derives.chained {terms : List Term} (derives : Derives selections terms) :
    Chained selections terms := by
  induction derives with
  | name found => exact .last ⟨_, _, fun waiting _ => Emits.name waiting _, .name found⟩
  | quantified connective found =>
    exact .last ⟨_, _, fun waiting _ => Emits.quantified waiting _ _, .quantified connective found⟩
  | enclosed inner ih => exact .last ih.ranked.enclosed
  | not operand ih => exact ih.not
  | join connective left right ihLeft ihRight =>
    exact ihLeft.join connective ihRight

/-- The parentheses that are still open. -/
def depth (waiting : List Waiting) : Nat :=
  waiting.count .opening

theorem depth_release (next : Junctor) (waiting : List Waiting) :
    depth (release next waiting).2 = depth waiting := by
  fun_induction release next waiting with
  | case1 junctor rest tight released kept split ih =>
    rw [split] at ih
    simpa [depth] using ih
  | case2 | case3 => rfl

/-- A closing parenthesis takes one parenthesis away. -/
theorem depth_close {kept : List Waiting} {released : List Step}
    (closed : close waiting = some (released, kept)) : depth kept + 1 = depth waiting := by
  induction waiting generalizing released with
  | nil => cases closed
  | cons top rest ih =>
    cases top with
    | opening =>
      cases closed
      simp [depth]
    | junctor =>
      obtain ⟨⟨others, left⟩, inner, same⟩ := Option.map_eq_some_iff.mp closed
      cases same
      simpa [depth] using ih inner

theorem depth_finish {released : List Step} (finished : finish waiting = some released) :
    depth waiting = 0 := by
  induction waiting generalizing released with
  | nil => rfl
  | cons top rest ih =>
    cases top with
    | opening => cases finished
    | junctor =>
      obtain ⟨others, inner, _⟩ := Option.map_eq_some_iff.mp finished
      simpa [depth] using ih inner

/-- The step that a part is by itself. -/
def Term.step? : Term → Option Step
  | .name selection => some (.name selection)
  | .quantified number target => some (.quantified number target)
  | _ => none

/-- What reading one part does: steps are written, the step of the part itself among them, and
only a parenthesis changes how many of them are open. -/
theorem postfixFrom_cons {rest : List Term}
    (ordered : postfixFrom waiting (term :: rest) = .ok steps) :
    ∃ kept written others, postfixFrom kept rest = .ok others ∧ steps = written ++ others ∧
      (∀ step, term.step? = some step → step ∈ written) ∧
      depth kept + (if term = .closing then 1 else 0) =
        depth waiting + (if term = .opening then 1 else 0) := by
  cases term with
  | name name =>
    obtain ⟨others, later, same⟩ := exists_of_bind ordered
    cases same
    exact ⟨waiting, [.name name], others, later, rfl, by simp [Term.step?], by simp⟩
  | quantified number target =>
    obtain ⟨others, later, same⟩ := exists_of_bind ordered
    cases same
    exact ⟨waiting, [.quantified number target], others, later, rfl, by simp [Term.step?], by simp⟩
  | opening =>
    exact ⟨.opening :: waiting, [], steps, ordered, rfl, by simp [Term.step?], by simp [depth]⟩
  | closing =>
    rw [postfixFrom] at ordered
    split at ordered
    · next released kept closed =>
      obtain ⟨others, later, same⟩ := exists_of_bind ordered
      cases same
      exact ⟨kept, released, others, later, rfl, by simp [Term.step?],
        by simpa using depth_close closed⟩
    · cases ordered
  | junctor junctor =>
    cases junctor with
    | not =>
      exact ⟨.junctor .not :: waiting, [], steps, ordered, rfl, by simp [Term.step?],
        by simp [depth]⟩
    | and | or =>
      obtain ⟨others, later, same⟩ := exists_of_bind ordered
      cases same
      refine ⟨_, _, others, later, rfl, by simp [Term.step?], ?_⟩
      simpa [depth] using depth_release _ waiting

/-- Every part that is a step by itself is among the steps. -/
theorem step_mem_postfixFrom {terms : List Term} (ordered : postfixFrom waiting terms = .ok steps)
    (listed : term ∈ terms) {step : Step} (own : term.step? = some step) : step ∈ steps := by
  induction terms generalizing waiting steps with
  | nil => cases listed
  | cons first rest ih =>
    obtain ⟨kept, written, others, later, rfl, writes, _⟩ := postfixFrom_cons ordered
    rcases List.mem_cons.mp listed with rfl | behind
    · exact List.mem_append_left _ (writes step own)
    · exact List.mem_append_right _ (ih later behind)

/-- Steps of the postfix grammar are about known selections only. -/
theorem Yields.derives_operand (yields : Yields selections steps tokens) {step : Step}
    (own : term.step? = some step) (listed : step ∈ steps) : Derives selections [term] := by
  induction yields with
  | name found =>
    cases List.mem_singleton.mp listed
    cases term <;> cases own
    exact .name found
  | quantified connective found =>
    cases List.mem_singleton.mp listed
    cases term <;> cases own
    exact .quantified connective found
  | not operand ih =>
    rcases List.mem_append.mp listed with before | last
    · exact ih before
    · cases List.mem_singleton.mp last
      cases term <;> cases own
  | join connective left right ihLeft ihRight =>
    rcases List.mem_append.mp listed with before | last
    · exact (List.mem_append.mp before).elim ihLeft ihRight
    · cases List.mem_singleton.mp last
      cases term <;> cases own

/-- Parts that are a condition, or that become one with an operand behind them. -/
def Partial (selections : Selections) : Bool → List Term → Prop
  | true, terms => Derives selections terms
  | false, terms => ∀ others, Derives selections others → Derives selections (terms ++ others)

/-- Parts with some parentheses still open. What stands in front of each of these awaits an
operand. -/
def Opened (selections : Selections) (ended : Bool) : Nat → List Term → Prop
  | 0, terms => Partial selections ended terms
  | count + 1, terms => ∃ outer inner, terms = outer ++ .opening :: inner ∧
      Opened selections false count outer ∧ Partial selections ended inner

namespace Opened

variable {ended : Bool} {count : Nat} {before : List Term}

/-- What happens to the innermost parts happens to the whole. -/
theorem innermost {later : Bool} {more : List Term}
    (within : ∀ terms, Partial selections ended terms → Partial selections later (terms ++ more))
    (opened : Opened selections ended count before) :
    Opened selections later count (before ++ more) := by
  cases count with
  | zero => exact within before opened
  | succ =>
    obtain ⟨outer, inner, rfl, awaits, kept⟩ := opened
    exact ⟨outer, inner ++ more, by simp, awaits, within inner kept⟩

/-- An operand where one is awaited. -/
theorem operand {more : List Term} (opened : Opened selections false count before)
    (derives : Derives selections more) : Opened selections true count (before ++ more) :=
  opened.innermost fun _ (awaits : Partial selections false _) => awaits more derives

theorem not (opened : Opened selections false count before) :
    Opened selections false count (before ++ [.junctor .not]) := by
  refine opened.innermost fun terms awaits others derives => ?_
  rw [List.append_assoc]
  exact awaits _ derives.not

/-- AND and OR await another operand. -/
theorem join (connective : Connective) (opened : Opened selections true count before) :
    Opened selections false count (before ++ [.junctor (junctorOf connective)]) := by
  refine opened.innermost fun terms left others derives => ?_
  rw [List.append_assoc]
  exact left.join connective derives

theorem opening (opened : Opened selections false count before) :
    Opened selections false (count + 1) (before ++ [.opening]) :=
  ⟨before, [], rfl, opened, fun _ derives => derives⟩

/-- What stands between parentheses is the operand that was awaited in front of them. -/
theorem closing (opened : Opened selections true (count + 1) before) :
    Opened selections true count (before ++ [.closing]) := by
  obtain ⟨outer, inner, rfl, awaits, derives⟩ := opened
  have enclosed : Derives selections (.opening :: (inner ++ [.closing])) := Derives.enclosed derives
  simpa using awaits.operand enclosed

/-- What was read and can be continued can be continued behind a part that fits. -/
theorem step {later : Nat} (known : ∀ step, term.step? = some step → Derives selections [term])
    (fits : (term.startsOperand != ended) = true)
    (level : later + (if term = .closing then 1 else 0) =
      count + (if term = .opening then 1 else 0)) (opened : Opened selections ended count before) :
    Opened selections term.endsOperand later (before ++ [term]) := by
  cases term with
  | name =>
    obtain rfl : ended = false := by simpa [Term.startsOperand] using fits
    obtain rfl : later = count := by simpa using level
    exact opened.operand (known _ rfl)
  | quantified =>
    obtain rfl : ended = false := by simpa [Term.startsOperand] using fits
    obtain rfl : later = count := by simpa using level
    exact opened.operand (known _ rfl)
  | opening =>
    obtain rfl : ended = false := by simpa [Term.startsOperand] using fits
    obtain rfl : later = count + 1 := by simpa using level
    exact opened.opening
  | closing =>
    obtain rfl : ended = true := by simpa [Term.startsOperand] using fits
    obtain rfl : later + 1 = count := by simpa using level
    exact opened.closing
  | junctor junctor =>
    obtain rfl : later = count := by simpa using level
    cases junctor with
    | not =>
      obtain rfl : ended = false := by simpa [Term.startsOperand] using fits
      exact opened.not
    | and =>
      obtain rfl : ended = true := by simpa [Term.startsOperand] using fits
      exact opened.join .and
    | or =>
      obtain rfl : ended = true := by simpa [Term.startsOperand] using fits
      exact opened.join .or

end Opened

/-- Parts in which parentheses match and operands alternate with what stands between them follow
the infix grammar, whatever was read before, as long as what was read can be continued. -/
theorem derives_of_postfixFrom {terms : List Term}
    (known : ∀ term ∈ terms, ∀ step, term.step? = some step → Derives selections [term])
    (ordered : postfixFrom waiting terms = .ok steps) {ended : Bool}
    (alternate : alternates ended terms = true) {before : List Term}
    (opened : Opened selections ended (depth waiting) before) :
    Derives selections (before ++ terms) := by
  induction terms generalizing waiting steps ended before with
  | nil =>
    obtain rfl : ended = true := alternate
    rw [postfixFrom] at ordered
    split at ordered
    · next released finished =>
      rw [depth_finish finished] at opened
      simpa [Opened, Partial] using opened
    · cases ordered
  | cons term rest ih =>
    obtain ⟨kept, written, others, later, _, _, level⟩ := postfixFrom_cons ordered
    obtain ⟨fits, alternateRest⟩ := Bool.and_eq_true_iff.mp alternate
    have knownRest := fun other listed => known other (List.mem_cons_of_mem term listed)
    have continued := opened.step (known term List.mem_cons_self) fits level
    simpa using ih knownRest later alternateRest continued

/-- A condition is accepted exactly if its postfix order follows the postfix grammar, and is then
replaced by the tokens that its steps yield. It follows the infix grammar exactly if it is
accepted and its operands alternate with what stands between them: of what the infix grammar asks
for, known selections, parentheses that match and operands in number are checked, and where the
operands stand is not. -/
theorem expand_accepts (selections : Selections) (text : String) :
    (∀ tokens, expand selections text = .ok tokens ↔
      ∃ steps, postfixFrom [] (terms (trim text)) = .ok steps ∧
        Yields selections steps tokens) ∧
    (Derives selections (terms (trim text)) ↔
      (∃ tokens, expand selections text = .ok tokens) ∧
        alternates false (terms (trim text)) = true) := by
  refine ⟨expand_eq_ok text, fun derives => ?_, ?_⟩
  · obtain ⟨steps, tokens, stands, yields⟩ := derives.chained.ranked
    refine ⟨⟨tokens, (expand_eq_ok text tokens).mpr ⟨steps, stands.postfixFrom, yields⟩⟩, ?_⟩
    have ends := derives.alternates_append []
    rwa [List.append_nil] at ends
  · rintro ⟨⟨tokens, expanded⟩, alternate⟩
    obtain ⟨steps, ordered, yields⟩ := (expand_eq_ok text tokens).mp expanded
    have known : ∀ term ∈ terms (trim text), ∀ step, term.step? = some step →
        Derives selections [term] := fun term listed step own =>
      yields.derives_operand own (step_mem_postfixFrom ordered listed own)
    have start : Opened selections false (depth []) [] := fun _ derives => derives
    have whole := derives_of_postfixFrom known ordered alternate start
    rwa [List.nil_append] at whole

/-- AND behind its operands is accepted, and is not in the infix grammar. -/
theorem expand_accepts_postfix :
    let word (text : String) : Leaf := .keyword .keyword (.text text) {}
    let selections := (({} : Selections).add "a" [.leaf (word "x")]).add "b" [.leaf (word "y")]
    (∃ tokens, expand selections "a b and" = .ok tokens) ∧
      ¬ Derives selections (terms (trim "a b and")) := by
  intro word selections
  have parts : terms (trim "a b and") = [.name "a", .name "b", .junctor .and] := by decide +kernel
  constructor
  · have first : Yields selections [.name "a"] (enclosed [.leaf (word "x")]) := .name rfl
    have second : Yields selections [.name "b"] (enclosed [.leaf (word "y")]) := .name rfl
    refine ⟨_, (expand_eq_ok _ _).mpr ⟨_, ?_, first.join .and second⟩⟩
    rw [parts]
    rfl
  · intro derives
    have ends := derives.alternates_append []
    rw [parts] at ends
    cases ends

end Detection.Sigma

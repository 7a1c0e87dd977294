import Detection.Proofs.Phrase
import Mathlib.Data.List.Forall2

/-!
# What the compiler makes of a flat query

The compiler walks the tokens with one frame for every open parenthesis. On the
tokens of a phrase this walk is the same as building the chain of the phrase in the
innermost frame: it ends there with that chain, or it stops at a NOT that has
nothing to negate. Conversely, tokens on which the walk succeeds are those of a
phrase. Together these say that a query compiles to the tree of its phrase.

The compiler first puts parentheses around every leaf behind a NOT. That changes
the positions that errors name and nothing else, so the walk over the tokens as
they stand decides.
-/
namespace Detection

variable {left right : Frame} {tree : Tree} {α : Type} {tokens : List Token}

namespace Frame

/-- Two frames that differ at most in the positions of their NOTs. -/
structure Agrees (left right : Frame) : Prop where
  chain : left.chain = right.chain
  pending : left.pending = right.pending
  count : left.negations.length = right.negations.length

theorem Agrees.refl (frame : Frame) : frame.Agrees frame := ⟨rfl, rfl, rfl⟩

/-- Folding negations over a tree depends on their number only. -/
theorem foldl_negations (positions : List Nat) (tree : Tree) :
    positions.foldl (fun tree _ => Tree.group .not [tree]) tree =
      tree.negatedTimes positions.length := by
  induction positions generalizing tree with
  | nil => rfl
  | cons position others ih => exact ih (.group .not [tree])

theorem add_eq (frame : Frame) (operand : Tree) :
    frame.add operand =
      { chain := frame.chain.add (frame.pending.getD .and)
          (operand.negatedTimes frame.negations.length) } := by
  simp only [add, foldl_negations]

/-- Frames that agree still do so behind the same operand. -/
theorem Agrees.add (agrees : left.Agrees right) (operand : Tree) :
    (left.add operand).Agrees (right.add operand) := by
  simp only [add_eq, agrees.chain, agrees.pending, agrees.count]
  exact .refl _

theorem Agrees.negations_nil (agrees : left.Agrees right) :
    left.negations = [] ↔ right.negations = [] := by
  rw [← List.length_eq_zero_iff, agrees.count, List.length_eq_zero_iff]

theorem Agrees.withPending (agrees : left.Agrees right) (connective : Connective) :
    Agrees { left with pending := some connective } { right with pending := some connective } :=
  ⟨agrees.chain, rfl, agrees.count⟩

theorem expectOperands_eq (frame : Frame) (none : frame.negations = []) :
    frame.expectOperands = .ok () := by
  simp only [expectOperands, none]

/-- Where a NOT waits, the check names the last one. -/
theorem expectOperands_error (frame : Frame) (some : frame.negations ≠ []) :
    ∃ position, frame.expectOperands = .error (.unbalanced position .negatedNothing) := by
  obtain ⟨position, others, waiting⟩ := List.exists_cons_of_ne_nil some
  exact ⟨position, by simp only [expectOperands, waiting]⟩

end Frame

/-- A step that starts with the check for waiting NOTs, when none waits. -/
theorem expectOperands_bind (frame : Frame) (none : frame.negations = [])
    (next : Except CompileError α) : (do frame.expectOperands; next) = next := by
  rw [frame.expectOperands_eq none]
  rfl

/-- A step that starts with the check succeeds only if no NOT waits. -/
theorem negations_of_bind_ok {frame : Frame} {next : Except CompileError α} {result : α}
    (passed : (do frame.expectOperands; next) = .ok result) :
    frame.negations = [] ∧ next = .ok result := by
  by_cases none : frame.negations = []
  · exact ⟨none, (expectOperands_bind frame none next).symm.trans passed⟩
  · obtain ⟨position, stopped⟩ := frame.expectOperands_error none
    rw [stopped] at passed
    contradiction

/-- A run of NOTs adds their positions to the innermost frame. -/
theorem compileFrom_negations (count position : Nat) (frame : Frame) (outer : List Frame)
    (rest : List Token) :
    ∃ positions : List Nat, positions.length = frame.negations.length + count ∧
      compileFrom position frame outer (List.replicate count .not ++ rest) =
        compileFrom (position + count) { frame with negations := positions } outer rest := by
  induction count generalizing position frame with
  | zero => exact ⟨frame.negations, rfl, rfl⟩
  | succ count ih =>
    obtain ⟨positions, length, walked⟩ := ih (position + 1)
      { frame with negations := position :: frame.negations }
    refine ⟨positions, ?_, ?_⟩
    · rw [length, List.length_cons]
      omega
    · rw [List.replicate_succ, List.cons_append, compileFrom, walked,
        Nat.add_right_comm position 1 count, Nat.add_assoc position count 1]

/-- Where the walk over a phrase ends. -/
def Phrase.Walked (result : Option (Chain × Option Connective)) (outer : List Frame)
    (rest : List Token) (walk : Except CompileError (Option Tree)) : Prop :=
  match result with
  | some (chain, pending) => ∃ position, walk = compileFrom position { chain, pending } outer rest
  | none => ∃ position, walk = .error (.unbalanced position .negatedNothing)

/-- The walk over the tokens of a phrase builds its chain in the innermost frame and
goes on behind it, or stops at a NOT with nothing to negate. The induction follows
the phrase; a scope inside is walked in a frame of its own, with the frame around it
on top of the outer ones. -/
theorem compileFrom_phrase (phrase : Phrase) (position : Nat) (chain : Chain)
    (pending : Option Connective) (outer : List Frame) (rest : List Token) :
    Phrase.Walked (phrase.chainFrom chain pending) outer rest
      (compileFrom position { chain, pending } outer (phrase.tokens ++ rest)) := by
  induction phrase generalizing position chain pending outer rest with
  | done => exact ⟨position, rfl⟩
  | word connective behind ih =>
    have walked := ih (position + 1) chain (some connective) outer rest
    cases connective with
    | and =>
      rw [Phrase.tokens, Connective.token, List.cons_append, compileFrom, expectOperands_bind _ rfl]
      exact walked
    | or =>
      rw [Phrase.tokens, Connective.token, List.cons_append, compileFrom, expectOperands_bind _ rfl]
      exact walked
  | leaf negations content behind ih =>
    rw [Phrase.tokens, List.append_assoc, List.cons_append]
    obtain ⟨positions, length, walked⟩ := compileFrom_negations negations position
      { chain, pending } outer (.leaf content :: (behind.tokens ++ rest))
    have count : positions.length = negations := by simpa using length
    rw [walked, compileFrom, Frame.add_eq, count]
    exact ih _ _ none outer rest
  | scope negations inner behind ihInner ihRest =>
    rw [Phrase.tokens, List.append_assoc, List.cons_append, List.append_assoc, List.cons_append]
    obtain ⟨positions, length, walked⟩ := compileFrom_negations negations position
      { chain, pending } outer (.opening :: (inner.tokens ++ .closing :: (behind.tokens ++ rest)))
    have count : positions.length = negations := by simpa using length
    rw [walked, compileFrom, Phrase.chainFrom]
    have innerWalk := ihInner (position + negations + 1) .empty none
      ({ chain, pending, negations := positions } :: outer) (.closing :: (behind.tokens ++ rest))
    generalize inner.chainFrom .empty none = built at innerWalk
    rcases built with _ | ⟨innerChain, innerPending⟩
    · exact innerWalk
    · obtain ⟨closing, innerWalked⟩ := innerWalk
      rw [innerWalked, compileFrom, expectOperands_bind _ rfl]
      cases finished : innerChain.tree? with
      | some =>
        simp only [finished, Frame.addScope, Frame.add_eq, count]
        exact ihRest _ _ none outer rest
      | none =>
        cases positions with
        | nil =>
          have none : negations = 0 := by simpa using count.symm
          simp only [finished, none, Frame.addScope, ↓reduceIte]
          exact ihRest _ _ pending outer rest
        | cons last =>
          have some : negations ≠ 0 := by
            rw [← count]
            simp
          simp only [finished, some, Frame.addScope, ↓reduceIte]
          exact ⟨last, rfl⟩

/-- The phrases that the tokens behind some open scopes write: the rest of the
innermost scope, and behind each closing parenthesis the rest of the next one. -/
def Phrase.tokensOf (first : Phrase) (others : List Phrase) : List Token :=
  first.tokens ++ others.flatMap fun phrase => .closing :: phrase.tokens

/-- Tokens on which the walk succeeds are those of phrases, one for each open scope.
If a NOT waits in the innermost frame, an operand comes next. The induction goes
over the tokens from the right, so that every token is put in front of a phrase
that is there already. -/
theorem compileFrom_reads (tokens : List Token) (position : Nat) (frame : Frame)
    (outer : List Frame) (result : Option Tree)
    (walked : compileFrom position frame outer tokens = .ok result) :
    ∃ first others, others.length = outer.length ∧ Phrase.tokensOf first others = tokens ∧
      (frame.negations ≠ [] → first.startsOperand) := by
  induction tokens generalizing position frame outer with
  | nil =>
    rw [compileFrom] at walked
    obtain ⟨none, ended⟩ := negations_of_bind_ok walked
    cases outer with
    | nil => exact ⟨.done, [], rfl, rfl, fun some => absurd none some⟩
    | cons => simp at ended
  | cons token rest ih =>
    cases token with
    | leaf content =>
      rw [compileFrom] at walked
      obtain ⟨first, others, length, written, _⟩ := ih _ _ outer walked
      refine ⟨.leaf 0 content first, others, length, ?_, fun _ => trivial⟩
      rw [← written]
      rfl
    | and =>
      rw [compileFrom] at walked
      obtain ⟨none, walked⟩ := negations_of_bind_ok walked
      obtain ⟨first, others, length, written, _⟩ := ih _ _ outer walked
      refine ⟨.word .and first, others, length, ?_, fun some => absurd none some⟩
      rw [← written]
      rfl
    | or =>
      rw [compileFrom] at walked
      obtain ⟨none, walked⟩ := negations_of_bind_ok walked
      obtain ⟨first, others, length, written, _⟩ := ih _ _ outer walked
      refine ⟨.word .or first, others, length, ?_, fun some => absurd none some⟩
      rw [← written]
      rfl
    | not =>
      rw [compileFrom] at walked
      obtain ⟨first, others, length, written, starts⟩ := ih _ _ outer walked
      have operand : first.startsOperand := starts (List.cons_ne_nil _ _)
      refine ⟨first.negated, others, length, ?_, fun _ => Phrase.startsOperand_negated operand⟩
      rw [Phrase.tokensOf, Phrase.tokens_negated operand, ← written]
      rfl
    | opening =>
      rw [compileFrom] at walked
      obtain ⟨inner, others, length, written, _⟩ := ih _ _ (frame :: outer) walked
      obtain ⟨behind, remaining, rfl⟩ : ∃ behind remaining, others = behind :: remaining :=
        List.exists_cons_of_length_eq_add_one length
      refine ⟨.scope 0 inner behind, remaining, Nat.succ.inj length, ?_, fun _ => trivial⟩
      rw [← written]
      simp [Phrase.tokensOf, Phrase.tokens]
    | closing =>
      cases outer with
      | nil =>
        rw [compileFrom] at walked
        exact absurd (negations_of_bind_ok walked).2 (by simp)
      | cons enclosing remaining =>
        rw [compileFrom] at walked
        obtain ⟨none, walked⟩ := negations_of_bind_ok walked
        cases joined : enclosing.addScope frame.chain.tree? with
        | error => simp [joined, bind, Except.bind] at walked
        | ok next =>
          simp only [joined, bind, Except.bind] at walked
          obtain ⟨first, others, length, written, _⟩ := ih _ _ remaining walked
          refine ⟨.done, first :: others, congrArg (· + 1) length, ?_,
            fun some => absurd none some⟩
          rw [← written]
          simp [Phrase.tokensOf, Phrase.tokens]
    | stray => simp [compileFrom] at walked

/-- A token that is no NOT in front of a leaf stays in its place. -/
theorem delimitNegations_cons (token : Token) (rest : List Token)
    (other : ∀ content behind, ¬(token = .not ∧ rest = .leaf content :: behind)) :
    Token.delimitNegations (token :: rest) = token :: Token.delimitNegations rest := by
  rw [Token.delimitNegations.eq_def]
  split
  · next content behind same =>
    cases same
    exact absurd ⟨rfl, rfl⟩ (other content behind)
  · next same =>
    cases same
    rfl
  · contradiction

theorem Frame.Agrees.negate (agrees : left.Agrees right) (position other : Nat) :
    Agrees { left with negations := position :: left.negations }
      { right with negations := other :: right.negations } :=
  ⟨agrees.chain, agrees.pending, congrArg (· + 1) agrees.count⟩

/-- The check for waiting NOTs fails for both of two frames that agree, or leaves
what comes behind it for both. -/
theorem Frame.Agrees.expectOperands_toOption (agrees : left.Agrees right)
    {first second : Except CompileError α} (same : first.toOption = second.toOption) :
    (do left.expectOperands; first).toOption = (do right.expectOperands; second).toOption := by
  by_cases none : left.negations = []
  · rw [expectOperands_bind left none, expectOperands_bind right (agrees.negations_nil.mp none)]
    exact same
  · obtain ⟨position, leftStopped⟩ := left.expectOperands_error none
    obtain ⟨other, rightStopped⟩ := right.expectOperands_error (mt agrees.negations_nil.mpr none)
    rw [leftStopped, rightStopped]
    rfl

/-- Frames that agree join the same scope alike, or both refuse it. -/
theorem Frame.Agrees.addScope (agrees : left.Agrees right) (scope : Option Tree) :
    (∃ next after, left.addScope scope = .ok next ∧ right.addScope scope = .ok after ∧
      next.Agrees after) ∨
    (∃ failure reason, left.addScope scope = .error failure ∧
      right.addScope scope = .error reason) := by
  cases scope with
  | some operand => exact .inl ⟨_, _, rfl, rfl, agrees.add operand⟩
  | none =>
    by_cases none : left.negations = []
    · refine .inl ⟨left, right, ?_, ?_, agrees⟩
      · simp only [Frame.addScope, none]
      · simp only [Frame.addScope, agrees.negations_nil.mp none]
    · obtain ⟨position, others, waiting⟩ := List.exists_cons_of_ne_nil none
      obtain ⟨other, remaining, pending⟩ :=
        List.exists_cons_of_ne_nil (mt agrees.negations_nil.mpr none)
      refine .inr ⟨.unbalanced position .negatedNothing, .unbalanced other .negatedNothing, ?_, ?_⟩
      · simp only [Frame.addScope, waiting]
      · simp only [Frame.addScope, pending]

/-- Parentheses around negated leaves do not change the outcome of the walk. The
frame of such a parenthesis receives the one leaf and hands it to the frame around
it, which joins it as it would have joined the bare leaf. -/
theorem compileFrom_delimitNegations (tokens : List Token) (position other : Nat)
    (left right : Frame) (outer around : List Frame) (agrees : left.Agrees right)
    (enclosing : List.Forall₂ Frame.Agrees outer around) :
    (compileFrom position left outer (Token.delimitNegations tokens)).toOption =
      (compileFrom other right around tokens).toOption := by
  induction tokens using Token.delimitNegations.induct
    generalizing position other left right outer around with
  | case1 content rest ih =>
    have delimited : compileFrom position left outer
        (Token.delimitNegations (.not :: .leaf content :: rest)) =
        compileFrom (position + 1 + 1 + 1 + 1)
          (Frame.add { left with negations := position :: left.negations } (.leaf content)) outer
          (Token.delimitNegations rest) := by
      rw [Token.delimitNegations, compileFrom, compileFrom, compileFrom, compileFrom,
        expectOperands_bind _ rfl]
      rfl
    rw [delimited, compileFrom, compileFrom]
    exact ih _ _ _ _ outer around
      ((agrees.negate position other).add (.leaf content)) enclosing
  | case2 token rest different ih =>
    rw [delimitNegations_cons token rest fun content behind same =>
      different content behind same.1 same.2]
    cases token with
    | leaf content =>
      rw [compileFrom, compileFrom]
      exact ih _ _ _ _ outer around (agrees.add (.leaf content)) enclosing
    | and =>
      rw [compileFrom, compileFrom]
      exact agrees.expectOperands_toOption
        (ih _ _ _ _ outer around (agrees.withPending .and) enclosing)
    | or =>
      rw [compileFrom, compileFrom]
      exact agrees.expectOperands_toOption
        (ih _ _ _ _ outer around (agrees.withPending .or) enclosing)
    | not =>
      rw [compileFrom, compileFrom]
      exact ih _ _ _ _ outer around (agrees.negate position other) enclosing
    | opening =>
      rw [compileFrom, compileFrom]
      exact ih _ _ _ _ _ _ (.refl {}) (.cons agrees enclosing)
    | closing =>
      cases enclosing with
      | nil =>
        rw [compileFrom, compileFrom]
        exact agrees.expectOperands_toOption rfl
      | cons same others =>
        rw [compileFrom, compileFrom]
        apply agrees.expectOperands_toOption
        rw [agrees.chain]
        obtain ⟨next, after, leftJoined, rightJoined, nextAgrees⟩ |
            ⟨failure, reason, leftRefused, rightRefused⟩ := same.addScope right.chain.tree?
        · rw [leftJoined, rightJoined]
          exact ih _ _ next after _ _ nextAgrees others
        · rw [leftRefused, rightRefused]
          rfl
    | stray => rfl
  | case3 =>
    rw [Token.delimitNegations, compileFrom, compileFrom]
    apply agrees.expectOperands_toOption
    cases enclosing with
    | nil => simp [agrees.chain]
    | cons => rfl

/-- A query compiles to a tree exactly when the walk over its tokens ends with the
scope that the tree is made of. -/
theorem compile_ok_iff (tokens : List Token) (tree : Tree) :
    compile tokens = .ok tree ↔
      ∃ scope, compileFrom 0 {} [] tokens = .ok scope ∧ Tree.ofScope scope = tree := by
  have same := compileFrom_delimitNegations tokens 0 0 {} {} [] [] (.refl {}) .nil
  simp only [compile]
  cases delimited : compileFrom 0 {} [] (Token.delimitNegations tokens) <;>
    cases plain : compileFrom 0 {} [] tokens <;>
    simp_all [Except.toOption, bind, Except.bind, pure, Except.pure]

/-- The tokens of a phrase compile to the tree of its chain, and to nothing if it has
none. -/
theorem compile_phrase (phrase : Phrase) (tree : Tree) :
    compile phrase.tokens = .ok tree ↔
      ∃ chain pending, phrase.chainFrom .empty none = some (chain, pending) ∧
        Tree.ofScope chain.tree? = tree := by
  have walked := compileFrom_phrase phrase 0 .empty none [] []
  rw [List.append_nil] at walked
  rw [compile_ok_iff]
  cases built : phrase.chainFrom .empty none with
  | none =>
    rw [built] at walked
    obtain ⟨position, stopped⟩ := walked
    simp [stopped]
  | some result =>
    obtain ⟨chain, pending⟩ := result
    rw [built] at walked
    obtain ⟨position, ended⟩ := walked
    rw [ended, compileFrom, expectOperands_bind _ rfl]
    simp [pure, Except.pure]

theorem exists_phrase_of_compile (compiled : compile tokens = .ok tree) :
    ∃ phrase : Phrase, phrase.tokens = tokens := by
  obtain ⟨scope, walked, _⟩ := (compile_ok_iff tokens tree).mp compiled
  obtain ⟨first, others, length, written, _⟩ := compileFrom_reads tokens 0 {} [] scope walked
  have none : others = [] := List.length_eq_zero_iff.mp length
  exact ⟨first, by simpa [Phrase.tokensOf, none] using written⟩

/-- What stands at the root of a compiled query: nothing, or a tree of the compiled
shape, with the leaves of the query in their order. -/
theorem compile_scope (compiled : compile tokens = .ok tree) :
    ∃ scope : Option Tree, tree = Tree.ofScope scope ∧
      (scope = none ∧ tokens.filterMap Token.leaf? = [] ∨
        ∃ inner, scope = some inner ∧ inner.Inner ∧
          inner.leaves = tokens.filterMap Token.leaf?) := by
  obtain ⟨phrase, rfl⟩ := exists_phrase_of_compile compiled
  obtain ⟨chain, pending, built, rfl⟩ := (compile_phrase phrase tree).mp compiled
  have leaves : chain.leaves = phrase.leaves :=
    Phrase.chainFrom_leaves phrase .empty chain none pending built
  have shape : chain.Inner := Phrase.chainFrom_inner phrase .empty chain none pending trivial built
  refine ⟨chain.tree?, rfl, ?_⟩
  rw [Phrase.leaves_tokens, ← leaves]
  cases finished : chain.tree? with
  | none => exact .inl ⟨rfl, Chain.leaves_of_tree_none finished⟩
  | some inner => exact .inr ⟨inner, rfl, shape.tree finished, Chain.leaves_tree finished⟩

/-- The group around a lone leaf at the root has the value of the leaf. -/
theorem Tree.value_ofScope (truth : Leaf → Bool) (scope : Option Tree) :
    (Tree.ofScope scope).value truth = (scope.map (Tree.value truth)).getD true := by
  rcases scope with _ | ⟨content⟩ | ⟨kind, members⟩
  · rfl
  · simp [Tree.ofScope]
  · rfl

/-- The group around a lone leaf at the root has that leaf. -/
theorem Tree.leaves_ofScope (scope : Option Tree) :
    (Tree.ofScope scope).leaves = (scope.map Tree.leaves).getD [] := by
  rcases scope with _ | ⟨content⟩ | ⟨kind, members⟩
  · rfl
  · simp [Tree.ofScope]
  · rfl

/-- The tree of a phrase has the value of its reading. -/
theorem value_of_compile {phrase : Phrase} (compiled : compile phrase.tokens = .ok tree)
    (truth : Leaf → Bool) : tree.value truth = (phrase.value? truth).getD true := by
  obtain ⟨chain, pending, built, rfl⟩ := (compile_phrase phrase tree).mp compiled
  have read : chain.value? truth = phrase.value? truth :=
    Phrase.chainFrom_value truth phrase .empty chain none pending built
  rw [Tree.value_ofScope, ← read]
  rfl

theorem leaves_of_compile (compiled : compile tokens = .ok tree) :
    tree.leaves = tokens.filterMap Token.leaf? := by
  obtain ⟨scope, rfl, ⟨rfl, none⟩ | ⟨inner, rfl, _, leaves⟩⟩ := compile_scope compiled
  · exact none.symm
  · rw [Tree.leaves_ofScope, ← leaves]
    rfl

/-- A query that compiles is the writing of a phrase, and under every assignment its
tree has the value of the reading of that phrase. A query without leaves compiles to
the AND of nothing. -/
theorem compile_value (tokens : List Token) (tree : Tree) (compiled : compile tokens = .ok tree) :
    (∃ phrase : Phrase, phrase.tokens = tokens) ∧
    (∀ phrase : Phrase, phrase.tokens = tokens → ∀ truth : Leaf → Bool,
      tree.value truth = (phrase.value? truth).getD true) ∧
    (tokens.filterMap Token.leaf? = [] → tree = .group .and []) := by
  refine ⟨exists_phrase_of_compile compiled, ?_, ?_⟩
  · rintro phrase rfl truth
    exact value_of_compile compiled truth
  · intro leafless
    obtain ⟨scope, rfl, ⟨rfl, _⟩ | ⟨inner, _, shape, leaves⟩⟩ := compile_scope compiled
    · rfl
    · exact absurd (leaves.trans leafless) shape.leaves_ne_nil

/-- The theorem at `a AND () OR b NOT NOT (c)`, where a scope without leaves stands
between two connectives, a connective is missing, and NOT is applied to a NOT. -/
theorem compile_value_mixed :
    let word (text : String) : Leaf := .keyword .keyword (.text text) {}
    let tokens : List Token := [.leaf (word "a"), .and, .opening, .closing, .or, .leaf (word "b"),
      .not, .not, .opening, .leaf (word "c"), .closing]
    let tree : Tree := .group .and [.group .or [.leaf (word "a"), .leaf (word "b")],
      .group .not [.group .not [.leaf (word "c")]]]
    compile tokens = .ok tree ∧
    (∃ phrase : Phrase, phrase.tokens = tokens) ∧
    (∀ phrase : Phrase, phrase.tokens = tokens → ∀ truth : Leaf → Bool,
      tree.value truth = (phrase.value? truth).getD true) ∧
    (tokens.filterMap Token.leaf? = [] → tree = .group .and []) :=
  ⟨rfl, compile_value _ _ rfl⟩

end Detection

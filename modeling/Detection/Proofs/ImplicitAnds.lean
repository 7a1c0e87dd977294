import Detection.Proofs.Balance
import Detection.Proofs.Outcomes
import Mathlib.Data.List.Chain

/-!
# Implicit ANDs

Two operands that stand side by side are joined by AND. A query can be given that AND as a token,
or the compiler can be left to join the operands by itself, and the outcome is the same as long as
every scope has a leaf in it: behind an operand no connective waits, and AND is what the compiler
takes when none does. A scope without leaves is no operand. A connective in front of it waits for
what comes behind it, and an AND put there would take its place.

The two walks are compared token by token. They are in the same state all the time, but for an AND
that waits in one of them where nothing waits in the other, and for the positions of NOTs.
-/
namespace Detection

/-- What stands between an opening parenthesis and the one that closes it has a leaf. -/
def ScopesFilled (tokens : List Token) : Prop :=
  ∀ before inner after, tokens = before ++ .opening :: (inner ++ .closing :: after) →
    Balanced inner → inner.filterMap Token.leaf? ≠ []

/-- The second query is the first with ANDs put in. -/
inductive AddsAnds : List Token → List Token → Prop
  | done : AddsAnds [] []
  | kept (token : Token) {tokens longer : List Token} (behind : AddsAnds tokens longer) :
      AddsAnds (token :: tokens) (token :: longer)
  | added {tokens longer : List Token} (behind : AddsAnds tokens longer) :
      AddsAnds tokens (.and :: longer)

namespace Token

/-- An operand ends with a leaf or with the end of a scope. -/
theorem endsOperand_iff (token : Token) :
    token.endsOperand = true ↔ token = .closing ∨ ∃ content, token = .leaf content := by
  cases token <;> simp [endsOperand]

/-- An operand starts with a leaf, with a scope or with a NOT. -/
theorem startsOperand_iff (token : Token) :
    token.startsOperand = true ↔
      token = .opening ∨ token = .not ∨ ∃ content, token = .leaf content := by
  cases token <;> simp [startsOperand]

/-- An AND belongs between two tokens: an operand ends with the first, and another starts with
the second. -/
def Joins (first second : Token) : Prop :=
  first.endsOperand = true ∧ second.startsOperand = true

theorem insertImplicitAnds_eq (tokens : List Token) :
    insertImplicitAnds tokens = insertAndsAfter .and tokens := by
  cases tokens <;> rfl

theorem addsAnds_insertAndsAfter (previous : Token) (tokens : List Token) :
    AddsAnds tokens (insertAndsAfter previous tokens) := by
  induction tokens generalizing previous with
  | nil => exact .done
  | cons token rest ih =>
    rw [insertAndsAfter]
    split
    · exact .added (.kept token (ih token))
    · exact .kept token (ih token)

/-- No AND is missing behind the pass. One that is put in neither ends nor starts an operand. -/
theorem isChain_insertAndsAfter (previous : Token) (tokens : List Token) :
    (previous :: insertAndsAfter previous tokens).IsChain fun first second =>
      ¬ Joins first second := by
  induction tokens generalizing previous with
  | nil => exact .singleton previous
  | cons token rest ih =>
    rw [insertAndsAfter]
    split
    · exact .cons_cons (by simp [Joins, startsOperand])
        (.cons_cons (by simp [Joins, endsOperand]) (ih token))
    · next apart => exact .cons_cons (by simpa [Joins] using apart) (ih token)

/-- Where no AND is missing none is put in. -/
theorem insertAndsAfter_of_isChain {previous : Token} {tokens : List Token}
    (complete : (previous :: tokens).IsChain fun first second => ¬ Joins first second) :
    insertAndsAfter previous tokens = tokens := by
  induction tokens generalizing previous with
  | nil => rfl
  | cons token rest ih =>
    obtain ⟨apart, behind⟩ := List.isChain_cons_cons.mp complete
    rw [insertAndsAfter, if_neg (by simpa [Joins] using apart), ih behind]

end Token

/-! ## What a walk depends on -/

/-- Where no connective waits in a frame, AND does. -/
def Frame.explicit (frame : Frame) : Frame :=
  { frame with pending := some (frame.pending.getD .and) }

@[simp] theorem Frame.explicit_chain (frame : Frame) : frame.explicit.chain = frame.chain := rfl

@[simp] theorem Frame.explicit_negations (frame : Frame) :
    frame.explicit.negations = frame.negations := rfl

/-- The walk takes AND where no connective waits. Joining an operand leaves no connective, so that
only the frames that are open in front of the tokens differ, and they differ in this only. -/
theorem compileFrom_explicit (tokens : List Token) (position : Nat) (frame : Frame)
    (outer : List Frame) :
    compileFrom position frame.explicit (outer.map Frame.explicit) tokens =
      compileFrom position frame outer tokens := by
  induction tokens generalizing position frame outer with
  | nil =>
    rw [compileFrom, compileFrom]
    cases outer <;> rfl
  | cons token rest ih =>
    have around (position : Nat) (frame : Frame) (outer : List Frame) :
        compileFrom position frame (outer.map Frame.explicit) rest =
          compileFrom position frame outer rest := by
      have twice : (outer.map Frame.explicit).map Frame.explicit = outer.map Frame.explicit := by
        rw [List.map_map]
        rfl
      have both := ih position frame (outer.map Frame.explicit)
      rw [twice, ih position frame outer] at both
      exact both.symm
    cases token with
    | leaf content => exact around _ (frame.add (.leaf content)) outer
    | and =>
      rw [compileFrom, compileFrom]
      exact congrArg (frame.expectOperands >>= fun _ => ·)
        (around _ { frame with pending := some .and } outer)
    | or =>
      rw [compileFrom, compileFrom]
      exact congrArg (frame.expectOperands >>= fun _ => ·)
        (around _ { frame with pending := some .or } outer)
    | not =>
      exact ih _ { frame with negations := position :: frame.negations } outer
    | opening => exact around _ {} (frame :: outer)
    | closing =>
      cases outer with
      | nil => rfl
      | cons enclosing others =>
        rw [List.map_cons, compileFrom, compileFrom]
        refine congrArg (frame.expectOperands >>= fun _ => ·) ?_
        rw [frame.explicit_chain]
        cases frame.chain.tree? with
        | some operand => exact around _ (enclosing.add operand) others
        | none =>
          simp only [Frame.addScope, enclosing.explicit_negations]
          cases enclosing.negations with
          | nil => exact ih _ enclosing others
          | cons => rfl
    | stray => rfl

/-- An AND that waits changes nothing where no connective waits. -/
theorem compileFrom_pendingAnd {frame : Frame} (free : frame.pending = none) (tokens : List Token)
    (position : Nat) (outer : List Frame) :
    compileFrom position { frame with pending := some .and } outer tokens =
      compileFrom position frame outer tokens := by
  have same : Frame.explicit { frame with pending := some .and } = frame.explicit := by
    simp [Frame.explicit, free]
  rw [← compileFrom_explicit tokens position frame outer, ← same, compileFrom_explicit]

/-- The positions of tokens and of NOTs do not decide what a walk finds. -/
theorem compileFrom_agrees (tokens : List Token) (position other : Nat) {left right : Frame}
    (agrees : left.Agrees right) (outer : List Frame) :
    (compileFrom position left outer tokens).toOption =
      (compileFrom other right outer tokens).toOption := by
  have same : List.Forall₂ Frame.Agrees outer outer :=
    List.forall₂_same.mpr fun frame _ => .refl frame
  have delimited (right : Frame) (agrees : left.Agrees right) (other : Nat) :=
    compileFrom_delimitNegations tokens position other left right outer outer agrees same
  exact (delimited left (.refl left) position).symm.trans (delimited right agrees other)

/-! ## Scopes that will be filled -/

/-- The open scopes have a leaf before they are closed. Those around the innermost one are counted
from the inside. A scope still waits for its leaf if it has no operand yet and no scope inside of it
has one; then a leaf stands in front of the parenthesis that closes it. -/
structure Fills (frame : Frame) (outer : List Frame) (tokens : List Token) : Prop where
  filled : ScopesFilled tokens
  opened : ∀ depth inner after, depth < outer.length →
    (∀ scope ∈ (frame :: outer).take (depth + 1), scope.chain.tree? = none) →
    tokens = inner ++ .closing :: after → Closes depth inner → inner.filterMap Token.leaf? ≠ []

theorem ScopesFilled.tail {token : Token} {rest : List Token}
    (filled : ScopesFilled (token :: rest)) : ScopesFilled rest :=
  fun before inner after written => filled (token :: before) inner after (congrArg _ written)

namespace Fills

variable {frame : Frame} {outer : List Frame} {rest : List Token}

theorem start {tokens : List Token} (filled : ScopesFilled tokens) : Fills {} [] tokens :=
  ⟨filled, fun _ _ _ below => absurd below (Nat.not_lt_zero _)⟩

/-- An operand in the innermost scope fills all the scopes around it. -/
theorem operand {token : Token} (filled : ScopesFilled (token :: rest))
    (some : frame.chain.tree? ≠ none) : Fills frame outer rest :=
  ⟨filled.tail, fun _ _ _ _ empty => absurd (empty frame (by simp)) some⟩

/-- Connectives and NOTs leave the operands as they are. -/
theorem other {token : Token} (fills : Fills frame outer (token :: rest))
    (noLeaf : token.leaf? = none) (opens : token.isOpening = false)
    (closes : token.isClosing = false) (next : Frame) (same : next.chain = frame.chain) :
    Fills next outer rest := by
  refine ⟨fills.filled.tail, fun depth inner after below empty written inside => ?_⟩
  have before : ∀ scope ∈ (frame :: outer).take (depth + 1), scope.chain.tree? = none := by
    simpa [same] using empty
  simpa [noLeaf] using fills.opened depth (token :: inner) after below before
    (congrArg _ written) ((Closes.other_iff opens closes depth inner).mpr inside)

/-- A scope that is opened is one of the query, and the scopes around it go on waiting. -/
theorem opening (fills : Fills frame outer (.opening :: rest)) :
    Fills {} (frame :: outer) rest := by
  refine ⟨fills.filled.tail, fun depth inner after below empty written inside => ?_⟩
  cases depth with
  | zero =>
    exact fills.filled [] inner after (congrArg _ written) ((balanced_iff_closes inner).mpr inside)
  | succ depth =>
    have before : ∀ scope ∈ (frame :: outer).take (depth + 1), scope.chain.tree? = none :=
      fun scope listed => empty scope (List.mem_cons_of_mem _ listed)
    simpa [Token.leaf?] using fills.opened depth (.opening :: inner) after
      (Nat.lt_of_succ_lt_succ below) before (congrArg _ written)
      ((Closes.opening_iff depth inner).mpr inside)

/-- A scope that is closed has an operand. -/
theorem exists_operand {enclosing : Frame} {others : List Frame}
    (fills : Fills frame (enclosing :: others) (.closing :: rest)) :
    ∃ operand, frame.chain.tree? = some operand := by
  cases finished : frame.chain.tree? with
  | some operand => exact ⟨operand, rfl⟩
  | none =>
    have leaf := fills.opened 0 [] rest (Nat.succ_pos _) (by simpa using finished) rfl
      ((Closes.nil_iff 0).mpr rfl)
    exact absurd rfl leaf

end Fills

/-! ## The two walks -/

/-- Nothing waits in a frame, neither a connective nor a NOT. -/
def Frame.Settled (frame : Frame) : Prop :=
  frame.pending = none ∧ frame.negations = []

/-- The walk over a query finds the same with the ANDs put in. An operand leaves a frame behind in
which nothing waits, and only there an AND is put in. -/
theorem compileFrom_insertAndsAfter {tokens : List Token} {frame : Frame} {outer : List Frame}
    (fills : Fills frame outer tokens) (previous : Token)
    (settled : previous.endsOperand = true → frame.Settled) (position other : Nat) :
    (compileFrom position frame outer (Token.insertAndsAfter previous tokens)).toOption =
      (compileFrom other frame outer tokens).toOption := by
  induction tokens generalizing frame outer previous position other with
  | nil => exact compileFrom_agrees [] position other (.refl frame) outer
  | cons token rest ih =>
    have walked (position : Nat) :
        (compileFrom position frame outer (token :: Token.insertAndsAfter token rest)).toOption =
          (compileFrom other frame outer (token :: rest)).toOption := by
      have agrees := Frame.Agrees.refl frame
      cases token with
      | leaf content =>
        have filled : (frame.add (.leaf content)).chain.tree? ≠ none :=
          frame.chain.tree_add_ne_none _ _
        exact ih (.operand fills.filled filled) _ (fun _ => ⟨rfl, rfl⟩) _ _
      | and =>
        have behind := fills.other rfl rfl rfl { frame with pending := some .and } rfl
        rw [compileFrom, compileFrom]
        exact agrees.expectOperands_toOption
          (ih behind .and (fun ends => by cases ends) _ _)
      | or =>
        have behind := fills.other rfl rfl rfl { frame with pending := some .or } rfl
        rw [compileFrom, compileFrom]
        exact agrees.expectOperands_toOption
          (ih behind .or (fun ends => by cases ends) _ _)
      | not =>
        have behind := fills.other rfl rfl rfl
          { frame with negations := position :: frame.negations } rfl
        rw [compileFrom, compileFrom,
          ih behind .not (fun ends => by cases ends) _ 0]
        exact compileFrom_agrees rest _ _ (agrees.negate position other) outer
      | opening => exact ih fills.opening .opening (fun ends => by cases ends) _ _
      | closing =>
        cases outer with
        | nil =>
          rw [compileFrom, compileFrom]
          exact agrees.expectOperands_toOption rfl
        | cons enclosing =>
          obtain ⟨operand, finished⟩ := fills.exists_operand
          have filled : (enclosing.add operand).chain.tree? ≠ none :=
            enclosing.chain.tree_add_ne_none _ _
          rw [compileFrom, compileFrom, finished]
          exact agrees.expectOperands_toOption
            (ih (.operand fills.filled filled) _ (fun _ => ⟨rfl, rfl⟩) _ _)
      | stray => rfl
    rw [Token.insertAndsAfter]
    split
    · next joins =>
      obtain ⟨free, none⟩ := settled (Bool.and_eq_true_iff.mp joins).1
      rw [compileFrom, expectOperands_bind frame none, compileFrom_pendingAnd free]
      exact walked (position + 1)
    · exact walked position

/-- A query compiles to the same tree with the ANDs put in, or to none in both forms. -/
theorem compile_insertImplicitAnds {tokens : List Token} (filled : ScopesFilled tokens)
    (tree : Tree) :
    compile (Token.insertImplicitAnds tokens) = .ok tree ↔ compile tokens = .ok tree := by
  have walked := compileFrom_insertAndsAfter (.start filled) .and (fun ends => by cases ends) 0 0
  rw [compile_ok_iff, compile_ok_iff, Token.insertImplicitAnds_eq]
  simp only [← toOption_eq_some_iff, walked]

/-- The ANDs that a query leaves out can be put in. If each of its scopes has a leaf, it compiles to
the same tree with them, or to none in both forms. For every query a second pass changes nothing,
only ANDs are added, and no operand is left that ends right in front of another. -/
theorem implicit_ands_invisible (tokens : List Token) :
    (ScopesFilled tokens → ∀ tree,
      compile (Token.insertImplicitAnds tokens) = .ok tree ↔ compile tokens = .ok tree) ∧
    Token.insertImplicitAnds (Token.insertImplicitAnds tokens) =
      Token.insertImplicitAnds tokens ∧
    AddsAnds tokens (Token.insertImplicitAnds tokens) ∧
    (∀ before first second after,
      Token.insertImplicitAnds tokens = before ++ first :: second :: after →
      (first = .closing ∨ ∃ content, first = .leaf content) →
      ¬ (second = .opening ∨ second = .not ∨ ∃ content, second = .leaf content)) := by
  simp only [Token.insertImplicitAnds_eq]
  have complete := Token.isChain_insertAndsAfter .and tokens
  refine ⟨fun filled tree => ?_, Token.insertAndsAfter_of_isChain complete,
    Token.addsAnds_insertAndsAfter .and tokens, fun before first second after written ends starts =>
      ?_⟩
  · rw [← Token.insertImplicitAnds_eq]
    exact compile_insertImplicitAnds filled tree
  · have apart := List.isChain_iff_forall_rel_of_append_cons_cons.mp complete.tail written
    exact apart
      ⟨(Token.endsOperand_iff first).mpr ends, (Token.startsOperand_iff second).mpr starts⟩

/-- Scopes that begin with a leaf are filled. -/
theorem ScopesFilled.of_leading {tokens : List Token}
    (leads : tokens.IsChain fun first second => first = .opening → second.leaf? ≠ none) :
    ScopesFilled tokens := by
  intro before inner after written _
  cases inner with
  | nil =>
    have leaf := List.isChain_iff_forall_rel_of_append_cons_cons.mp leads written rfl
    exact absurd rfl leaf
  | cons =>
    have leaf := List.isChain_iff_forall_rel_of_append_cons_cons.mp leads written rfl
    obtain ⟨content, own⟩ := Option.ne_none_iff_exists'.mp leaf
    simp [own]

/-- The theorem at `a OR (b c) NOT (d)`, which becomes `a OR (b AND c) AND NOT (d)`. -/
theorem implicit_ands_invisible_mixed :
    let word (text : String) : Leaf := .keyword .keyword (.text text) {}
    let tokens : List Token := [.leaf (word "a"), .or, .opening, .leaf (word "b"),
      .leaf (word "c"), .closing, .not, .opening, .leaf (word "d"), .closing]
    let joined : List Token := [.leaf (word "a"), .or, .opening, .leaf (word "b"), .and,
      .leaf (word "c"), .closing, .and, .not, .opening, .leaf (word "d"), .closing]
    let tree : Tree := .group .and [
      .group .or [.leaf (word "a"), .group .and [.leaf (word "b"), .leaf (word "c")]],
      .group .not [.leaf (word "d")]]
    ScopesFilled tokens ∧ Token.insertImplicitAnds tokens = joined ∧ AddsAnds tokens joined ∧
      compile tokens = .ok tree ∧ compile joined = .ok tree := by
  intro word tokens joined tree
  have filled : ScopesFilled tokens := .of_leading (by simp [tokens, Token.leaf?])
  obtain ⟨same, _, added, _⟩ := implicit_ands_invisible tokens
  exact ⟨filled, rfl, added, rfl, (same filled tree).mpr rfl⟩

/-- In a query with an empty scope the AND can take the place of another connective. -/
example :
    let word (text : String) : Leaf := .keyword .keyword (.text text) {}
    let tokens : List Token := [.leaf (word "a"), .or, .opening, .closing, .leaf (word "b")]
    compile tokens = .ok (.group .or [.leaf (word "a"), .leaf (word "b")]) ∧
    compile (Token.insertImplicitAnds tokens) =
      .ok (.group .and [.leaf (word "a"), .leaf (word "b")]) :=
  ⟨rfl, rfl⟩

end Detection

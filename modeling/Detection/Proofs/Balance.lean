import Detection.Proofs.Compilation

/-!
# Which queries compile

A query compiles when its parentheses are balanced and every NOT has something to negate.
Both conditions are stated on the tokens, without a compiler: balance by counting
parentheses in every beginning of the query, and what a NOT may stand in front of by the
tokens behind it. Connectives play no part in either, except that none may stand between a
NOT and its operand.

The link to the compiler is the phrase that the tokens write. Its parentheses are balanced
by construction, and a chain can be built from it exactly when it is grounded: every scope
behind a NOT has a leaf in it.
-/
namespace Detection

variable {rest before after : List Token} {depth : Nat} {token : Token} {frame : Frame}
  {error : CompileError}

namespace Token

def isOpening : Token → Bool
  | opening => true
  | _ => false

def isClosing : Token → Bool
  | closing => true
  | _ => false

end Token

theorem Connective.token_ne_not (connective : Connective) : connective.token ≠ .not := by
  cases connective <;> simp [token]

/-- The parentheses of a query are balanced: no beginning of it closes more scopes than it
opens, and the whole of it closes as many. -/
structure Balanced (tokens : List Token) : Prop where
  beginning : ∀ before, before <+: tokens →
    before.countP Token.isClosing ≤ before.countP Token.isOpening
  whole : tokens.countP Token.isClosing = tokens.countP Token.isOpening

/-- An operand stands at the beginning of some tokens: NOTs, and behind them a leaf or a
scope that holds a leaf. The scope reaches up to the parenthesis that closes it, so what
stands between is balanced. -/
inductive StartsOperand : List Token → Prop
  | leaf (content : Leaf) (rest : List Token) : StartsOperand (.leaf content :: rest)
  | scope (inner rest : List Token) (balanced : Balanced inner)
      (some : inner.filterMap Token.leaf? ≠ []) :
      StartsOperand (.opening :: (inner ++ .closing :: rest))
  | negation (rest : List Token) (starts : StartsOperand rest) : StartsOperand (.not :: rest)

/-- An operand stands behind every NOT. -/
def NegationsApply (tokens : List Token) : Prop :=
  ∀ rest, .not :: rest <:+ tokens → StartsOperand rest

/-- The tokens close a number of scopes that are open in front of them. -/
structure Closes (depth : Nat) (tokens : List Token) : Prop where
  beginning : ∀ before, before <+: tokens →
    before.countP Token.isClosing ≤ depth + before.countP Token.isOpening
  whole : tokens.countP Token.isClosing = depth + tokens.countP Token.isOpening

theorem balanced_iff_closes (tokens : List Token) : Balanced tokens ↔ Closes 0 tokens := by
  constructor <;>
  · rintro ⟨beginning, whole⟩
    exact ⟨by simpa using beginning, by simpa using whole⟩

namespace Closes

theorem nil_iff (depth : Nat) : Closes depth [] ↔ depth = 0 := by
  constructor
  · intro closes
    simpa using closes.whole.symm
  · rintro rfl
    exact ⟨by simp, by simp⟩

/-- A token in front adds to the open scopes, or takes from them. -/
theorem cons_iff {next : Nat}
    (balance : depth + [token].countP Token.isOpening = next + [token].countP Token.isClosing)
    (rest : List Token) : Closes depth (token :: rest) ↔ Closes next rest := by
  have count (counts : Token → Bool) (tokens : List Token) :
      (token :: tokens).countP counts = tokens.countP counts + [token].countP counts := by
    simp [List.countP_cons]
  constructor
  · rintro ⟨beginning, whole⟩
    refine ⟨fun before isBefore => ?_, ?_⟩
    · have own := beginning (token :: before) ((List.prefix_cons_inj token).mpr isBefore)
      rw [count Token.isClosing, count Token.isOpening] at own
      omega
    · rw [count Token.isClosing, count Token.isOpening] at whole
      omega
  · rintro ⟨beginning, whole⟩
    refine ⟨fun before isBefore => ?_, ?_⟩
    · rcases List.prefix_cons_iff.mp isBefore with rfl | ⟨tail, rfl, isTail⟩
      · simp
      · have own := beginning tail isTail
        rw [count Token.isClosing, count Token.isOpening]
        omega
    · rw [count Token.isClosing, count Token.isOpening]
      omega

theorem opening_iff (depth : Nat) (rest : List Token) :
    Closes depth (.opening :: rest) ↔ Closes (depth + 1) rest :=
  cons_iff rfl rest

theorem closing_iff (depth : Nat) (rest : List Token) :
    Closes (depth + 1) (.closing :: rest) ↔ Closes depth rest :=
  cons_iff rfl rest

theorem exists_of_closing (closes : Closes depth (.closing :: rest)) :
    ∃ outer, depth = outer + 1 := by
  have first := closes.beginning [.closing] (by simp)
  rw [Nat.exists_eq_add_one]
  simpa [Token.isClosing, Token.isOpening, Nat.one_le_iff_ne_zero, Nat.pos_iff_ne_zero] using first

/-- Other tokens leave the number of open scopes as it is. -/
theorem other_iff (opens : token.isOpening = false) (closes : token.isClosing = false)
    (depth : Nat) (rest : List Token) : Closes depth (token :: rest) ↔ Closes depth rest :=
  cons_iff (by simp [opens, closes]) rest

/-- A connective leaves the number of open scopes as it is. -/
theorem connective_iff (connective : Connective) (depth : Nat) (rest : List Token) :
    Closes depth (connective.token :: rest) ↔ Closes depth rest := by
  cases connective <;> exact other_iff rfl rfl depth rest

/-- A connective can be put anywhere. -/
theorem insert (closes : Closes depth (before ++ after)) (connective : Connective) :
    Closes depth (before ++ connective.token :: after) := by
  induction before generalizing depth with
  | nil => exact (connective_iff connective depth after).mpr closes
  | cons token others ih =>
    cases token with
    | opening =>
      exact (opening_iff depth _).mpr (ih ((opening_iff depth _).mp closes))
    | closing =>
      obtain ⟨outer, rfl⟩ := closes.exists_of_closing
      exact (closing_iff outer _).mpr (ih ((closing_iff outer _).mp closes))
    | leaf | and | or | not | stray =>
      exact (other_iff rfl rfl depth _).mpr
        (ih ((other_iff rfl rfl depth _).mp closes))

theorem negations (count : Nat) (closes : Closes depth rest) :
    Closes depth (List.replicate count .not ++ rest) := by
  induction count with
  | zero => exact closes
  | succ count ih =>
    rw [List.replicate_succ, List.cons_append]
    exact (other_iff rfl rfl depth _).mpr ih

theorem phrase (phrase : Phrase) (closes : Closes depth rest) :
    Closes depth (phrase.tokens ++ rest) := by
  induction phrase generalizing depth rest with
  | done => exact closes
  | word connective behind ih =>
    exact (connective_iff connective depth _).mpr (ih closes)
  | leaf count content behind ih =>
    rw [Phrase.tokens, List.append_assoc, List.cons_append]
    exact negations count ((other_iff rfl rfl depth _).mpr (ih closes))
  | scope count inner behind ihInner ihRest =>
    rw [Phrase.tokens, List.append_assoc, List.cons_append, List.append_assoc, List.cons_append]
    apply negations count
    rw [opening_iff]
    apply ihInner
    rw [closing_iff]
    exact ihRest closes

end Closes

namespace Balanced

theorem tokens (phrase : Phrase) : Balanced phrase.tokens := by
  rw [balanced_iff_closes]
  simpa using Closes.phrase phrase ((Closes.nil_iff 0).mpr rfl)

/-- Balanced tokens do not go on with a parenthesis that closes a scope around them. -/
theorem not_longer {inner : List Token} (balanced : Balanced inner) :
    ¬ Balanced (inner ++ .closing :: rest) := by
  intro longer
  have isBefore : inner ++ [.closing] <+: inner ++ .closing :: rest := by simp
  have closed := longer.beginning _ isBefore
  have whole := balanced.whole
  simp only [List.countP_append, List.countP_singleton, Token.isClosing, Token.isOpening,
    ↓reduceIte, Bool.false_eq_true] at closed
  omega

/-- A scope has one end only. -/
theorem inner_unique {first second other : List Token} (balanced : Balanced first)
    (balancedSecond : Balanced second)
    (same : first ++ .closing :: rest = second ++ .closing :: other) : first = second := by
  rcases List.append_eq_append_iff.mp same with ⟨more, rfl, split⟩ | ⟨more, rfl, split⟩
  · cases more with
    | nil => simp
    | cons =>
      obtain ⟨rfl, _⟩ := List.cons.inj split
      exact absurd balancedSecond balanced.not_longer
  · cases more with
    | nil => simp
    | cons =>
      obtain ⟨rfl, _⟩ := List.cons.inj split
      exact absurd balanced balancedSecond.not_longer

end Balanced

namespace Phrase

/-- Every scope behind a NOT has a leaf in it. -/
def Grounded : Phrase → Prop
  | done => True
  | word _ rest => rest.Grounded
  | leaf _ _ rest => rest.Grounded
  | scope negations inner rest =>
    (negations = 0 ∨ inner.leaves ≠ []) ∧ inner.Grounded ∧ rest.Grounded

/-- A chain has a tree exactly when the phrase that it was built from has a leaf. -/
theorem tree_isSome_iff {phrase : Phrase} {chain : Chain} {pending : Option Connective}
    (built : phrase.chainFrom .empty none = some (chain, pending)) :
    chain.tree?.isSome ↔ phrase.leaves ≠ [] := by
  have leaves : chain.leaves = phrase.leaves :=
    chainFrom_leaves phrase .empty chain none pending built
  have inner : chain.Inner := chainFrom_inner phrase .empty chain none pending trivial built
  rw [← leaves]
  cases finished : chain.tree? with
  | none => simp [Chain.leaves_of_tree_none finished]
  | some tree => simp [← Chain.leaves_tree finished, (inner.tree finished).leaves_ne_nil]

/-- A chain can be built from a phrase exactly when the phrase is grounded. -/
theorem chainFrom_isSome_iff (phrase : Phrase) (chain : Chain) (pending : Option Connective) :
    (phrase.chainFrom chain pending).isSome ↔ phrase.Grounded := by
  induction phrase generalizing chain pending with
  | done => simp [chainFrom, Grounded]
  | word connective rest ih => exact ih chain (some connective)
  | leaf negations content rest ih => exact ih _ none
  | scope negations inner rest ihInner ihRest =>
    have innerBuilds := ihInner .empty none
    simp only [chainFrom, Grounded]
    cases built : inner.chainFrom .empty none with
    | none => simp [← innerBuilds, built]
    | some result =>
      obtain ⟨innerChain, waiting⟩ := result
      have grounded : inner.Grounded := innerBuilds.mp (by simp [built])
      have leaves := tree_isSome_iff built
      cases finished : innerChain.tree? with
      | some =>
        have someLeaf : inner.leaves ≠ [] := leaves.mp (by simp [finished])
        simp [finished, ihRest, grounded, someLeaf]
      | none =>
        have noLeaf : inner.leaves = [] := by
          by_contra someLeaf
          simp [finished] at leaves
          exact someLeaf leaves
        by_cases bare : negations = 0 <;> simp [finished, bare, ihRest, grounded, noLeaf]

theorem exists_compile_iff (phrase : Phrase) :
    (∃ tree, compile phrase.tokens = .ok tree) ↔ phrase.Grounded := by
  rw [← chainFrom_isSome_iff phrase .empty none, Option.isSome_iff_exists]
  constructor
  · rintro ⟨tree, compiled⟩
    obtain ⟨chain, pending, built, _⟩ := (compile_phrase phrase tree).mp compiled
    exact ⟨(chain, pending), built⟩
  · rintro ⟨⟨chain, pending⟩, built⟩
    exact ⟨_, (compile_phrase phrase _).mpr ⟨chain, pending, built, rfl⟩⟩

end Phrase

namespace NegationsApply

theorem not_iff (rest : List Token) :
    NegationsApply (.not :: rest) ↔ StartsOperand rest ∧ NegationsApply rest := by
  constructor
  · intro applies
    exact ⟨applies rest (List.suffix_refl _),
      fun behind isBehind => applies behind (isBehind.trans (List.suffix_cons _ _))⟩
  · rintro ⟨starts, applies⟩ behind isBehind
    rcases List.suffix_cons_iff.mp isBehind with same | later
    · exact (List.cons.inj same).2 ▸ starts
    · exact applies behind later

theorem other_iff (other : token ≠ .not) (rest : List Token) :
    NegationsApply (token :: rest) ↔ NegationsApply rest := by
  constructor
  · intro applies behind isBehind
    exact applies behind (isBehind.trans (List.suffix_cons _ _))
  · intro applies behind isBehind
    rcases List.suffix_cons_iff.mp isBehind with same | later
    · exact absurd (List.cons.inj same).1.symm other
    · exact applies behind later

/-- NOTs in front of an operand apply to it. -/
theorem negations {count : Nat} (starts : count = 0 ∨ StartsOperand rest)
    (applies : NegationsApply rest) : NegationsApply (List.replicate count .not ++ rest) := by
  rcases starts with rfl | starts
  · exact applies
  · suffices StartsOperand (List.replicate count .not ++ rest) ∧
        NegationsApply (List.replicate count .not ++ rest) from this.2
    induction count with
    | zero => exact ⟨starts, applies⟩
    | succ count ih =>
      rw [List.replicate_succ, List.cons_append, not_iff]
      exact ⟨.negation _ ih.1, ih⟩

/-- The NOTs of a grounded phrase apply to its operands. -/
theorem phrase {phrase : Phrase} (grounded : phrase.Grounded) (applies : NegationsApply rest) :
    NegationsApply (phrase.tokens ++ rest) := by
  induction phrase generalizing rest with
  | done => exact applies
  | word connective behind ih =>
    exact (other_iff connective.token_ne_not _).mpr (ih grounded applies)
  | leaf count content behind ih =>
    rw [Phrase.tokens, List.append_assoc, List.cons_append]
    apply negations (.inr (.leaf content _))
    exact (other_iff (by simp) _).mpr (ih grounded applies)
  | scope count inner behind ihInner ihRest =>
    obtain ⟨operand, innerGrounded, restGrounded⟩ := grounded
    rw [Phrase.tokens, List.append_assoc, List.cons_append, List.append_assoc, List.cons_append]
    apply negations
    · refine operand.imp_right fun someLeaf => .scope _ _ (.tokens inner) ?_
      rwa [Phrase.leaves_tokens]
    · rw [other_iff (by simp)]
      apply ihInner innerGrounded
      rw [other_iff (by simp)]
      exact ihRest restGrounded applies

end NegationsApply

/-- Where an operand stands behind NOTs, the scope there has a leaf in it. -/
theorem StartsOperand.inner_leaves {count : Nat} {inner : Phrase} (starts : StartsOperand
      (List.replicate count .not ++ .opening :: (inner.tokens ++ .closing :: rest))) :
    inner.leaves ≠ [] := by
  induction count with
  | zero =>
    rw [List.replicate_zero, List.nil_append] at starts
    generalize written : inner.tokens ++ Token.closing :: rest = tokens at starts
    cases starts with
    | scope group behind balanced someLeaf =>
      rw [← Phrase.leaves_tokens, (Balanced.tokens inner).inner_unique balanced written]
      exact someLeaf
  | succ count ih =>
    rw [List.replicate_succ, List.cons_append] at starts
    cases starts with
    | negation _ starts => exact ih starts

/-- Tokens as grounded phrases, one up to each parenthesis that closes an open scope and one
behind them all. Where the tokens start with an operand, so does the first phrase. -/
structure Grounds (depth : Nat) (tokens : List Token) (first : Phrase) (others : List Phrase) :
    Prop where
  length : others.length = depth
  written : Phrase.tokensOf first others = tokens
  grounded : first.Grounded
  each : ∀ phrase ∈ others, phrase.Grounded
  starts : StartsOperand tokens → first.startsOperand

namespace Grounds

variable {first : Phrase} {others : List Phrase}

theorem nil : Grounds 0 [] .done [] :=
  ⟨rfl, rfl, trivial, by simp, fun starts => by cases starts⟩

/-- A leaf in front of a phrase. -/
theorem leaf (content : Leaf) (grounds : Grounds depth rest first others) :
    Grounds depth (.leaf content :: rest) (.leaf 0 content first) others := by
  refine ⟨grounds.length, ?_, grounds.grounded, grounds.each, fun _ => trivial⟩
  rw [← grounds.written]
  rfl

/-- A connective in front of a phrase. It starts no operand. -/
theorem word (connective : Connective) (grounds : Grounds depth rest first others) :
    Grounds depth (connective.token :: rest) (.word connective first) others := by
  refine ⟨grounds.length, ?_, grounds.grounded, grounds.each, fun starts => ?_⟩
  · rw [← grounds.written]
    rfl
  · cases connective <;> cases starts

/-- A NOT in front of an operand. If the operand is a scope, it has a leaf in it. -/
theorem negated (starts : StartsOperand rest) (grounds : Grounds depth rest first others) :
    Grounds depth (.not :: rest) first.negated others := by
  have operand : first.startsOperand := grounds.starts starts
  refine ⟨grounds.length, ?_, ?_, grounds.each, fun _ => Phrase.startsOperand_negated operand⟩
  · rw [Phrase.tokensOf, Phrase.tokens_negated operand, ← grounds.written]
    rfl
  · cases first with
    | done | word | leaf => exact grounds.grounded
    | scope negations inner =>
      have someLeaf : inner.leaves ≠ [] := by
        rw [← grounds.written, Phrase.tokensOf, Phrase.tokens, List.append_assoc,
          List.cons_append, List.append_assoc, List.cons_append] at starts
        exact starts.inner_leaves
      exact ⟨.inr someLeaf, grounds.grounded.2⟩

/-- An opening parenthesis makes a scope of the first phrase, and what was behind the scope
comes behind it in the same phrase. -/
theorem scope (grounds : Grounds (depth + 1) rest first others) :
    ∃ behind remaining, Grounds depth (.opening :: rest) (.scope 0 first behind) remaining := by
  obtain ⟨behind, remaining, rfl⟩ : ∃ behind remaining, others = behind :: remaining :=
    List.exists_cons_of_length_eq_add_one grounds.length
  obtain ⟨behindGrounded, each⟩ := List.forall_mem_cons.mp grounds.each
  refine ⟨behind, remaining, Nat.succ.inj grounds.length, ?_,
    ⟨.inl rfl, grounds.grounded, behindGrounded⟩, each, fun _ => trivial⟩
  rw [← grounds.written]
  simp [Phrase.tokensOf, Phrase.tokens]

theorem closed (grounds : Grounds depth rest first others) :
    Grounds (depth + 1) (.closing :: rest) .done (first :: others) := by
  refine ⟨congrArg (· + 1) grounds.length, ?_, trivial,
    List.forall_mem_cons.mpr ⟨grounds.grounded, grounds.each⟩, fun starts => by cases starts⟩
  rw [← grounds.written]
  simp [Phrase.tokensOf, Phrase.tokens]

end Grounds

/-- Tokens that close the open scopes, and whose NOTs apply, are those of grounded phrases.
The induction goes over the tokens from the right, as in the reading of tokens that compile. -/
theorem exists_grounds {tokens : List Token} (plain : .stray ∉ tokens)
    (closes : Closes depth tokens) (applies : NegationsApply tokens) :
    ∃ first others, Grounds depth tokens first others := by
  induction tokens generalizing depth with
  | nil =>
    obtain rfl := (Closes.nil_iff depth).mp closes
    exact ⟨_, _, .nil⟩
  | cons token rest ih =>
    have restPlain : .stray ∉ rest := fun belongs => plain (List.mem_cons_of_mem _ belongs)
    have behind {next : Nat} (restCloses : Closes next rest) (other : token ≠ .not) :
        ∃ first others, Grounds next rest first others :=
      ih restPlain restCloses ((NegationsApply.other_iff other rest).mp applies)
    cases token with
    | leaf content =>
      obtain ⟨_, _, grounds⟩ := behind ((Closes.other_iff rfl rfl depth rest).mp closes) (by simp)
      exact ⟨_, _, grounds.leaf content⟩
    | and =>
      obtain ⟨_, _, grounds⟩ := behind ((Closes.other_iff rfl rfl depth rest).mp closes) (by simp)
      exact ⟨_, _, grounds.word .and⟩
    | or =>
      obtain ⟨_, _, grounds⟩ := behind ((Closes.other_iff rfl rfl depth rest).mp closes) (by simp)
      exact ⟨_, _, grounds.word .or⟩
    | not =>
      obtain ⟨starts, restApplies⟩ := (NegationsApply.not_iff rest).mp applies
      obtain ⟨_, _, grounds⟩ :=
        ih restPlain ((Closes.other_iff rfl rfl depth rest).mp closes) restApplies
      exact ⟨_, _, grounds.negated starts⟩
    | opening =>
      obtain ⟨_, _, grounds⟩ := behind ((Closes.opening_iff depth rest).mp closes) (by simp)
      obtain ⟨_, _, scope⟩ := grounds.scope
      exact ⟨_, _, scope⟩
    | closing =>
      obtain ⟨outer, rfl⟩ := closes.exists_of_closing
      obtain ⟨_, _, grounds⟩ := behind ((Closes.closing_iff outer rest).mp closes) (by simp)
      exact ⟨_, _, grounds.closed⟩
    | stray => simp at plain

/-- A query without stray operators compiles exactly when its parentheses are balanced and
its NOTs apply. -/
theorem exists_compile_iff {tokens : List Token} (plain : .stray ∉ tokens) :
    (∃ tree, compile tokens = .ok tree) ↔ Balanced tokens ∧ NegationsApply tokens := by
  constructor
  · rintro ⟨tree, compiled⟩
    obtain ⟨phrase, rfl⟩ := exists_phrase_of_compile compiled
    have grounded : phrase.Grounded := phrase.exists_compile_iff.mp ⟨tree, compiled⟩
    have nothing : NegationsApply [] := fun rest isBehind => by simp at isBehind
    refine ⟨.tokens phrase, ?_⟩
    simpa using NegationsApply.phrase grounded nothing
  · rintro ⟨balanced, applies⟩
    obtain ⟨first, others, grounds⟩ :=
      exists_grounds plain ((balanced_iff_closes tokens).mp balanced) applies
    obtain rfl := List.length_eq_zero_iff.mp grounds.length
    rw [← grounds.written, Phrase.tokensOf, List.flatMap_nil, List.append_nil]
    exact first.exists_compile_iff.mpr grounds.grounded

/-- Balance is not lost by a connective. -/
theorem Balanced.insert (balanced : Balanced (before ++ after)) (connective : Connective) :
    Balanced (before ++ connective.token :: after) :=
  (balanced_iff_closes _).mpr (((balanced_iff_closes _).mp balanced).insert connective)

/-- An operand at the beginning stays there when a connective is put somewhere behind its
first token, though not right behind a NOT. A connective inside the scope leaves the leaves
of the scope as they are. -/
theorem StartsOperand.insert (present : before ≠ []) (apart : before.getLast? ≠ some .not)
    (starts : StartsOperand (before ++ after)) (connective : Connective) :
    StartsOperand (before ++ connective.token :: after) := by
  induction before with
  | nil => contradiction
  | cons token others ih =>
    rw [List.cons_append] at starts ⊢
    generalize written : others ++ after = tokens at starts
    cases starts with
    | leaf content => exact .leaf content _
    | negation _ starts =>
      subst written
      cases others with
      | nil => simp at apart
      | cons =>
        rw [List.getLast?_cons_cons] at apart
        exact .negation _ (ih (List.cons_ne_nil _ _) apart starts)
    | scope inner rest balanced someLeaf =>
      have inside (more : List Token) (split : inner = others ++ more) :
          StartsOperand
            (.opening :: (others ++ connective.token :: (more ++ .closing :: rest))) := by
        subst split
        have same : others ++ connective.token :: (more ++ .closing :: rest) =
            others ++ connective.token :: more ++ .closing :: rest := by simp
        rw [same]
        refine .scope _ _ (balanced.insert connective) ?_
        cases connective <;>
          simpa [Connective.token, Token.leaf?, List.filterMap_cons] using someLeaf
      rcases List.append_eq_append_iff.mp written with ⟨more, split, rfl⟩ | ⟨more, rfl, split⟩
      · exact inside more split
      · cases more with
        | nil =>
          obtain rfl : .closing :: rest = after := split
          exact inside [] (by simp)
        | cons =>
          cases split
          rw [List.append_assoc]
          exact .scope _ _ balanced someLeaf

/-- NOTs go on to apply when a connective is put anywhere but right behind one of them. -/
theorem NegationsApply.insert (apart : before.getLast? ≠ some .not)
    (applies : NegationsApply (before ++ after)) (connective : Connective) :
    NegationsApply (before ++ connective.token :: after) := by
  induction before with
  | nil => exact (other_iff connective.token_ne_not after).mpr applies
  | cons token others ih =>
    have othersApart : others.getLast? ≠ some .not := by
      cases others with
      | nil => simp
      | cons => rwa [List.getLast?_cons_cons] at apart
    rw [List.cons_append] at applies ⊢
    by_cases negates : token = .not
    · subst negates
      have someOther : others ≠ [] := by
        rintro rfl
        simp at apart
      rw [not_iff] at applies ⊢
      exact ⟨applies.1.insert someOther othersApart connective,
        ih othersApart applies.2⟩
    · rw [other_iff negates] at applies ⊢
      exact ih othersApart applies

/-- An error that names a fault in the structure of groups. -/
def CompileError.IsUnbalanced (error : CompileError) : Prop :=
  ∃ position fault, error = .unbalanced position fault

/-- A step that starts with the check for waiting NOTs fails there or behind it. -/
theorem isUnbalanced_of_bind {α : Type} {next : Except CompileError α}
    (failed : (do frame.expectOperands; next) = .error error)
    (behind : next = .error error → error.IsUnbalanced) : error.IsUnbalanced := by
  by_cases none : frame.negations = []
  · rw [expectOperands_bind frame none] at failed
    exact behind failed
  · obtain ⟨position, stopped⟩ := frame.expectOperands_error none
    rw [stopped] at failed
    exact ⟨position, .negatedNothing, (Except.error.inj failed).symm⟩

/-- A frame refuses a scope only for a NOT in front of it. -/
theorem isUnbalanced_of_addScope {scope : Option Tree}
    (refused : frame.addScope scope = .error error) : error.IsUnbalanced := by
  cases scope with
  | some => cases refused
  | none =>
    rw [Frame.addScope] at refused
    split at refused
    · cases refused
    · next position others waiting =>
      exact ⟨position, .negatedNothing, (Except.error.inj refused).symm⟩

/-- The walk over tokens without a stray operator fails only at the structure of groups. -/
theorem isUnbalanced_of_compileFrom {tokens : List Token} (plain : .stray ∉ tokens)
    {position : Nat} {outer : List Frame}
    (failed : compileFrom position frame outer tokens = .error error) : error.IsUnbalanced := by
  induction tokens generalizing position frame outer with
  | nil =>
    rw [compileFrom] at failed
    refine isUnbalanced_of_bind failed fun ended => ?_
    split at ended
    · cases ended
    · exact ⟨position, .unmatchedOpening, (Except.error.inj ended).symm⟩
  | cons token rest ih =>
    have restFails {position : Nat} {frame : Frame} {outer : List Frame} :
        compileFrom position frame outer rest = .error error → error.IsUnbalanced :=
      ih fun belongs => plain (List.mem_cons_of_mem _ belongs)
    cases token with
    | leaf => exact restFails failed
    | and | or => exact isUnbalanced_of_bind failed restFails
    | not | opening => exact restFails failed
    | closing =>
      cases outer with
      | nil =>
        refine isUnbalanced_of_bind failed fun closed => ?_
        exact ⟨position, .unmatchedClosing, (Except.error.inj closed).symm⟩
      | cons enclosing =>
        refine isUnbalanced_of_bind failed fun closed => ?_
        cases joined : enclosing.addScope frame.chain.tree? with
        | error =>
          simp only [joined, bind, Except.bind, Except.error.injEq] at closed
          exact closed ▸ isUnbalanced_of_addScope joined
        | ok next =>
          simp only [joined, bind, Except.bind] at closed
          exact restFails closed
    | stray => simp at plain

/-- Parentheses around negated leaves bring in no stray operator. -/
theorem stray_notMem_delimitNegations {tokens : List Token} (plain : .stray ∉ tokens) :
    .stray ∉ Token.delimitNegations tokens := by
  induction tokens using Token.delimitNegations.induct with
  | case1 content rest ih =>
    simp only [List.mem_cons, not_or] at plain
    simpa [Token.delimitNegations] using ih plain.2.2
  | case2 token rest different ih =>
    rw [delimitNegations_cons token rest fun content behind same =>
      different content behind same.1 same.2]
    simp only [List.mem_cons, not_or] at plain ⊢
    exact ⟨plain.1, ih plain.2⟩
  | case3 => exact plain

/-- A query of leaves, connectives, NOTs and parentheses compiles if and only if its
parentheses are balanced and every NOT stands in front of an operand: NOTs, and behind them
a leaf or a scope with a leaf in it. Every failure names a fault in the structure of groups.
A connective that is put anywhere but right behind a NOT never makes a query fail. -/
theorem compile_succeeds_iff (tokens : List Token) (plain : .stray ∉ tokens) :
    ((∃ tree, compile tokens = .ok tree) ↔ Balanced tokens ∧ NegationsApply tokens) ∧
    (∀ error, compile tokens = .error error → error.IsUnbalanced) ∧
    (∀ before after connective, tokens = before ++ after → before.getLast? ≠ some .not →
      (∃ tree, compile tokens = .ok tree) →
        ∃ tree, compile (before ++ Connective.token connective :: after) = .ok tree) := by
  refine ⟨exists_compile_iff plain, fun error failed => ?_, ?_⟩
  · rw [compile] at failed
    cases walked : compileFrom 0 {} [] (Token.delimitNegations tokens) with
    | ok scope => simp [walked, bind, Except.bind, pure, Except.pure] at failed
    | error failure =>
      simp only [walked, bind, Except.bind, Except.error.injEq] at failed
      exact failed ▸ isUnbalanced_of_compileFrom (stray_notMem_delimitNegations plain) walked
  · rintro before after connective rfl apart compiled
    obtain ⟨balanced, applies⟩ := (exists_compile_iff plain).mp compiled
    have stillPlain : .stray ∉ before ++ connective.token :: after := by
      cases connective <;> simpa [Connective.token] using plain
    exact (exists_compile_iff stillPlain).mpr
      ⟨balanced.insert connective, applies.insert apart connective⟩

/-- The theorem at `AND NOT NOT (() a OR) OR`: connectives stand in front of everything,
behind everything and at the end of a scope, a scope is empty, and two NOTs follow each
other. -/
theorem compile_succeeds_iff_dangling :
    let word : Leaf := .keyword .keyword (.text "a") {}
    let tokens : List Token := [.and, .not, .not, .opening, .opening, .closing, .leaf word, .or,
      .closing, .or]
    .stray ∉ tokens ∧ (∃ tree, compile tokens = .ok tree) ∧
    ((∃ tree, compile tokens = .ok tree) ↔ Balanced tokens ∧ NegationsApply tokens) ∧
    (∀ error, compile tokens = .error error → error.IsUnbalanced) ∧
    (∀ before after connective, tokens = before ++ after → before.getLast? ≠ some .not →
      (∃ tree, compile tokens = .ok tree) →
        ∃ tree, compile (before ++ Connective.token connective :: after) = .ok tree) := by
  intro word tokens
  have plain : .stray ∉ tokens := by simp [tokens]
  exact ⟨plain, ⟨.group .not [.group .not [.leaf word]], rfl⟩, compile_succeeds_iff tokens plain⟩

end Detection

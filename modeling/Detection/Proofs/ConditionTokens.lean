import Detection.Proofs.Compilation
import Detection.Proofs.Infix

/-!
# The tokens of a written condition

A condition on one level of parentheses stands for a flat query: the leaves, the NOTs
and the connectives in the order of the text, and the parentheses. AND and OR are
never mixed on a level, so that the compiler, which joins strictly from left to right,
gives the tokens the value of the condition. Two operands never stand side by side
without a connective, so that there is no place where AND has been left out.

Where a language writes a leaf in other words than its own, reading the text gives
another operand for it. A condition in which every leaf is replaced by such an operand
has the value that the condition has when a leaf counts as its operand.
-/
namespace Detection

/-- Implicit connectives are the only new tokens. -/
theorem Token.mem_insertImplicitAnds {tokens : List Token} {token : Token}
    (member : token ∈ Token.insertImplicitAnds tokens) : token ∈ tokens ∨ token = .and := by
  have behind (previous : Token) (tokens : List Token)
      (member : token ∈ Token.insertAndsAfter previous tokens) : token ∈ tokens ∨ token = .and := by
    induction tokens generalizing previous with
    | nil => contradiction
    | cons first others ih =>
      rw [Token.insertAndsAfter] at member
      split at member <;> simp only [List.mem_cons] at member ⊢
      · rcases member with rfl | rfl | later
        · exact .inr rfl
        · exact .inl (.inl rfl)
        · exact (ih _ later).imp .inr id
      · rcases member with rfl | later
        · exact .inl (.inl rfl)
        · exact (ih _ later).imp .inr id
  cases tokens with
  | nil => contradiction
  | cons first others =>
    rcases List.mem_cons.mp member with rfl | later
    · exact .inl List.mem_cons_self
    · exact (behind first others later).imp (List.mem_cons_of_mem _) id

namespace Operand

/-- Induction over an operand, with a hypothesis for every operand between its
parentheses. -/
@[elab_as_elim, induction_eliminator]
theorem induction {motive : Operand → Prop} (clause : ∀ leaf, motive (clause leaf))
    (negated : ∀ operand, motive operand → motive (negated operand))
    (enclosed : ∀ connective first others, motive first → (∀ operand ∈ others, motive operand) →
      motive (enclosed connective first others)) (operand : Operand) : motive operand :=
  @Operand.rec motive (fun operands => ∀ operand ∈ operands, motive operand) clause negated
    enclosed (fun _ absent => absurd absent List.not_mem_nil)
    (fun _ _ first others _ belongs => (List.mem_cons.mp belongs).elim (· ▸ first) (others _))
    operand

mutual

def tokens : Operand → List Token
  | clause leaf => [.leaf leaf]
  | negated operand => .not :: operand.tokens
  | enclosed connective first others =>
    .opening :: (first.tokens ++ (tokensBehind connective others ++ [.closing]))

/-- The tokens of the operands behind the first one on a level. -/
def tokensBehind (connective : Connective) : List Operand → List Token
  | [] => []
  | operand :: others =>
    connective.token :: (operand.tokens ++ tokensBehind connective others)

end

mutual

/-- The operand with another operand in place of each leaf. -/
def bind (replace : Leaf → Operand) : Operand → Operand
  | clause leaf => replace leaf
  | negated operand => negated (operand.bind replace)
  | enclosed connective first others =>
    enclosed connective (first.bind replace) (bindAll replace others)

/-- Several operands with another operand in place of each leaf. -/
def bindAll (replace : Leaf → Operand) : List Operand → List Operand
  | [] => []
  | operand :: others => operand.bind replace :: bindAll replace others

end

theorem bindAll_eq (replace : Leaf → Operand) (operands : List Operand) :
    bindAll replace operands = operands.map (bind replace) := by
  induction operands with
  | nil => rfl
  | cons operand others ih =>
    simp only [bindAll, List.map_cons, ih]

/-- A replaced leaf counts as its operand. -/
theorem value_bind (truth : Leaf → Bool) (replace : Leaf → Operand) (operand : Operand) :
    (operand.bind replace).value truth =
      operand.value fun leaf => (replace leaf).value truth := by
  induction operand with
  | clause leaf => rfl
  | negated operand ih => simp only [bind, value, ih]
  | enclosed connective first others ihFirst ihOthers =>
    have tail : others.map (fun operand => (operand.bind replace).value truth) =
        others.map (value fun leaf => (replace leaf).value truth) :=
      List.map_congr_left ihOthers
    simp only [bind, bindAll_eq, value, valueAll_eq, List.map_map, Function.comp_def,
      ihFirst, tail]

/-- The leaves of an operand with replaced leaves are those of the replacements. -/
theorem leaves_bind (replace : Leaf → Operand) (operand : Operand) :
    (operand.bind replace).leaves = operand.leaves.flatMap fun leaf => (replace leaf).leaves := by
  induction operand with
  | clause leaf => simp [bind, leaves]
  | negated operand ih => simp only [bind, leaves, ih]
  | enclosed connective first others ihFirst ihOthers =>
    have tail : others.flatMap (fun operand => (operand.bind replace).leaves) =
        others.flatMap fun operand => operand.leaves.flatMap fun leaf => (replace leaf).leaves :=
      List.flatMap_congr ihOthers
    simp only [bind, bindAll_eq, leaves, leavesAll_eq, List.flatMap_map, List.flatMap_append,
      List.flatMap_assoc, ihFirst, tail]

/-- The leaves among the tokens behind the first operand of a level, if those among the
tokens of each operand are its leaves. -/
theorem leaves_tokensBehind (connective : Connective) (operands : List Operand)
    (each : ∀ operand ∈ operands, operand.tokens.filterMap Token.leaf? = operand.leaves) :
    (tokensBehind connective operands).filterMap Token.leaf? = operands.flatMap leaves := by
  induction operands with
  | nil => rfl
  | cons operand others ih =>
    have word : connective.token.leaf? = none := by cases connective <;> rfl
    have tail := ih
      fun other belongs => each other (List.mem_cons_of_mem _ belongs)
    simp [tokensBehind, word, each operand List.mem_cons_self, tail]

theorem leaves_tokens (operand : Operand) :
    operand.tokens.filterMap Token.leaf? = operand.leaves := by
  induction operand with
  | clause leaf => rfl
  | negated operand ih => exact ih
  | enclosed connective first others ihFirst ihOthers =>
    simp [tokens, leaves, leavesAll_eq, List.filterMap_cons, Token.leaf?, ihFirst,
      leaves_tokensBehind connective others ihOthers]

mutual

/-- The phrase of an operand under some NOTs, and of what follows it. -/
def phrase (negations : Nat) (rest : Phrase) : Operand → Phrase
  | clause leaf => .leaf negations leaf rest
  | negated operand => operand.phrase (negations + 1) rest
  | enclosed connective first others =>
    .scope negations (first.phrase 0 (phraseBehind connective others)) rest

/-- The phrase of the operands behind the first one on a level. -/
def phraseBehind (connective : Connective) : List Operand → Phrase
  | [] => .done
  | operand :: others => .word connective (operand.phrase 0 (phraseBehind connective others))

end

/-- The tokens behind the first operand are those of the phrase there, if that is so for
each operand. -/
theorem tokens_phraseBehind (connective : Connective) (operands : List Operand)
    (each : ∀ operand ∈ operands, ∀ negations rest, (operand.phrase negations rest).tokens =
      List.replicate negations .not ++ operand.tokens ++ rest.tokens) :
    (phraseBehind connective operands).tokens = tokensBehind connective operands := by
  induction operands with
  | nil => rfl
  | cons operand others ih =>
    have tail := ih
      fun other belongs => each other (List.mem_cons_of_mem _ belongs)
    simp [phraseBehind, tokensBehind, Phrase.tokens, each operand List.mem_cons_self, tail]

/-- The phrase of an operand is written with its tokens. -/
theorem tokens_phrase (operand : Operand) (negations : Nat) (rest : Phrase) :
    (operand.phrase negations rest).tokens =
      List.replicate negations .not ++ operand.tokens ++ rest.tokens := by
  induction operand generalizing negations rest with
  | clause leaf => simp [phrase, Phrase.tokens, tokens]
  | negated operand ih =>
    simp [phrase, tokens, ih, List.replicate_succ']
  | enclosed connective first others ihFirst ihOthers =>
    simp [phrase, Phrase.tokens, tokens, ihFirst,
      tokens_phraseBehind connective others ihOthers]

/-- The reading of a level behind its first operand. -/
theorem valueFrom_phraseBehind (truth : Leaf → Bool) (connective : Connective)
    (operands : List Operand) (before : Bool)
    (each : ∀ operand ∈ operands, ∀ negations rest before pending,
      (operand.phrase negations rest).valueFrom truth before pending =
        rest.valueFrom truth (some (Phrase.joinValue before pending
          (negatedValue negations (operand.value truth)))) none) :
    (phraseBehind connective operands).valueFrom truth (some before) none =
      some (connective.valueOf (before :: operands.map (value truth))) := by
  induction operands generalizing before with
  | nil => simp [phraseBehind, Phrase.valueFrom]
  | cons operand others ih =>
    have tail := ih (connective.apply before (operand.value truth))
      fun other belongs => each other (List.mem_cons_of_mem _ belongs)
    rw [phraseBehind, Phrase.valueFrom, each operand List.mem_cons_self]
    simp only [Phrase.joinValue, negatedValue, Option.getD_some, tail, Connective.valueOf_apply,
      List.map_cons]

/-- The reading of the phrase of an operand joins its value to what stands before. -/
theorem valueFrom_phrase (truth : Leaf → Bool) (operand : Operand) (negations : Nat)
    (rest : Phrase) (before : Option Bool) (pending : Option Connective) :
    (operand.phrase negations rest).valueFrom truth before pending =
      rest.valueFrom truth (some (Phrase.joinValue before pending
        (negatedValue negations (operand.value truth)))) none := by
  induction operand generalizing negations rest before pending with
  | clause leaf => rfl
  | negated operand ih => rw [phrase, ih, negatedValue, value]
  | enclosed connective first others ihFirst ihOthers =>
    have inner : (first.phrase 0 (phraseBehind connective others)).valueFrom truth none none =
        some ((enclosed connective first others).value truth) := by
      rw [ihFirst, valueFrom_phraseBehind truth connective others _ ihOthers,
        value, valueAll_eq]
      rfl
    simp only [phrase, Phrase.valueFrom, inner]

/-- The chain of a level behind its first operand is there and has an operand. -/
theorem exists_chain_phraseBehind (connective : Connective) (operands : List Operand)
    (chain : Chain) (some : chain.tree? ≠ none)
    (each : ∀ operand ∈ operands, ∀ negations, ∃ tree, ∀ rest chain pending,
      (operand.phrase negations rest).chainFrom chain pending =
        rest.chainFrom (chain.add (pending.getD .and) tree) none) :
    ∃ last, (phraseBehind connective operands).chainFrom chain none = Option.some (last, none) ∧
      last.tree? ≠ none := by
  induction operands generalizing chain with
  | nil => exact ⟨chain, rfl, some⟩
  | cons operand others ih =>
    obtain ⟨tree, built⟩ := each operand List.mem_cons_self 0
    rw [phraseBehind, Phrase.chainFrom, built]
    refine ih _ ?_
      fun other belongs => each other (List.mem_cons_of_mem _ belongs)
    exact Chain.tree_add_ne_none _ _ _

/-- The phrase of an operand adds one tree to the chain: there is an operand between
every two parentheses, so that no NOT stands in front of nothing. -/
theorem exists_tree_phrase (operand : Operand) (negations : Nat) :
    ∃ tree, ∀ rest chain pending, (operand.phrase negations rest).chainFrom chain pending =
      rest.chainFrom (chain.add (pending.getD .and) tree) none := by
  induction operand generalizing negations with
  | clause leaf => exact ⟨_, fun _ _ _ => rfl⟩
  | negated operand ih => exact ih (negations + 1)
  | enclosed connective first others ihFirst ihOthers =>
    obtain ⟨tree, built⟩ := ihFirst 0
    obtain ⟨last, behind, some⟩ := exists_chain_phraseBehind connective others
      (Chain.empty.add .and tree) (Chain.tree_add_ne_none _ _ _) ihOthers
    obtain ⟨inner, finished⟩ := Option.ne_none_iff_exists'.mp some
    refine ⟨inner.negatedTimes negations, ?_⟩
    intro rest chain pending
    have scope : (first.phrase 0 (phraseBehind connective others)).chainFrom .empty none =
        Option.some (last, none) := by
      rw [built, ← behind]
      rfl
    simp only [phrase, Phrase.chainFrom, scope, finished]

/-- Whether no operand starts a list of tokens. -/
def Parted (tokens : List Token) : Prop := ∀ token ∈ tokens.head?, token.startsOperand = false

/-- Where no operand starts, no AND is left out, whatever stands before. -/
theorem insertImplicitAnds_parted (previous : Token) {tokens : List Token}
    (parted : Parted tokens) :
    Token.insertImplicitAnds (previous :: tokens) =
      previous :: Token.insertImplicitAnds tokens := by
  cases tokens with
  | nil => rfl
  | cons token rest =>
    have no : token.startsOperand = false := parted token rfl
    simp [Token.insertAndsAfter, Token.insertImplicitAnds, no]

/-- Where no operand ends, no AND is left out, whatever follows. -/
theorem insertImplicitAnds_open {previous : Token} (opens : previous.endsOperand = false)
    (tokens : List Token) :
    Token.insertImplicitAnds (previous :: tokens) =
      previous :: Token.insertImplicitAnds tokens := by
  cases tokens with
  | nil => rfl
  | cons => simp [Token.insertAndsAfter, Token.insertImplicitAnds, opens]

theorem parted_tokensBehind (connective : Connective) (operands : List Operand)
    {rest : List Token} (parted : Parted rest) :
    Parted (tokensBehind connective operands ++ rest) := by
  cases operands with
  | nil => exact parted
  | cons => cases connective <;> simp [Parted, tokensBehind, Connective.token,
      Token.startsOperand]

/-- No AND is left out behind the first operand of a level, if none is in the operands. -/
theorem insertImplicitAnds_tokensBehind (connective : Connective) (operands : List Operand)
    (rest : List Token) (parted : Parted rest)
    (each : ∀ operand ∈ operands, ∀ rest, Parted rest →
      Token.insertImplicitAnds (operand.tokens ++ rest) =
        operand.tokens ++ Token.insertImplicitAnds rest) :
    Token.insertImplicitAnds (tokensBehind connective operands ++ rest) =
      tokensBehind connective operands ++ Token.insertImplicitAnds rest := by
  induction operands with
  | nil => rfl
  | cons operand others ih =>
    have opens : connective.token.endsOperand = false := by cases connective <;> rfl
    have tail := ih
      fun other belongs => each other (List.mem_cons_of_mem _ belongs)
    have first := each operand List.mem_cons_self _ (parted_tokensBehind connective others parted)
    simp only [tokensBehind, List.cons_append, List.append_assoc, insertImplicitAnds_open opens,
      first, tail]

/-- No AND is left out in an operand. -/
theorem insertImplicitAnds_tokens (operand : Operand) (rest : List Token) (parted : Parted rest) :
    Token.insertImplicitAnds (operand.tokens ++ rest) =
      operand.tokens ++ Token.insertImplicitAnds rest := by
  induction operand generalizing rest with
  | clause leaf => simp [tokens, insertImplicitAnds_parted _ parted]
  | negated operand ih =>
    have opens : Token.not.endsOperand = false := rfl
    simp only [tokens, List.cons_append, insertImplicitAnds_open opens,
      ih rest parted]
  | enclosed connective first others ihFirst ihOthers =>
    have opens : Token.opening.endsOperand = false := rfl
    have closed : Parted (.closing :: rest) := by simp [Parted, Token.startsOperand]
    have behind := insertImplicitAnds_tokensBehind connective others _ closed ihOthers
    have front := ihFirst _ (parted_tokensBehind connective others closed)
    simp only [tokens, List.cons_append, List.append_assoc, List.nil_append,
      insertImplicitAnds_open opens, front, behind, insertImplicitAnds_parted _ parted]

end Operand

namespace Infix

def tokens (condition : Infix) : List Token :=
  condition.first.tokens ++ Operand.tokensBehind condition.connective condition.others

/-- The condition with an operand in place of each leaf. -/
def bind (replace : Leaf → Operand) (condition : Infix) : Infix where
  connective := condition.connective
  first := condition.first.bind replace
  others := condition.others.map (Operand.bind replace)

theorem value_bind (truth : Leaf → Bool) (replace : Leaf → Operand) (condition : Infix) :
    (condition.bind replace).value truth =
      condition.value fun leaf => (replace leaf).value truth := by
  simp [value, bind, operands, Operand.value_bind, Function.comp_def]

theorem leaves_bind (replace : Leaf → Operand) (condition : Infix) :
    (condition.bind replace).leaves =
      condition.leaves.flatMap fun leaf => (replace leaf).leaves := by
  simp [leaves, bind, operands, Operand.leaves_bind, List.flatMap_map, List.flatMap_assoc]

theorem insertImplicitAnds_tokens (condition : Infix) :
    Token.insertImplicitAnds condition.tokens = condition.tokens := by
  have ends : Operand.Parted [] := by simp [Operand.Parted]
  have behind := Operand.insertImplicitAnds_tokensBehind condition.connective condition.others []
    ends fun operand _ => operand.insertImplicitAnds_tokens
  have front := condition.first.insertImplicitAnds_tokens _
    (Operand.parted_tokensBehind condition.connective condition.others ends)
  rw [behind] at front
  simpa [tokens, Token.insertImplicitAnds] using front

/-- A condition compiles, to a tree with its value and its leaves. -/
theorem exists_compiled (condition : Infix) :
    ∃ tree, compile condition.tokens = .ok tree ∧
      (∀ truth, tree.value truth = condition.value truth) ∧ tree.leaves = condition.leaves := by
  obtain ⟨connective, first, others⟩ := condition
  let phrase := first.phrase 0 (Operand.phraseBehind connective others)
  have written : phrase.tokens = tokens ⟨connective, first, others⟩ := by
    rw [Operand.tokens_phrase,
      Operand.tokens_phraseBehind connective others fun operand _ => operand.tokens_phrase]
    simp [tokens]
  obtain ⟨tree, built⟩ := first.exists_tree_phrase 0
  obtain ⟨chain, behind, _⟩ := Operand.exists_chain_phraseBehind connective others
    (Chain.empty.add .and tree) (Chain.tree_add_ne_none _ _ _)
    fun operand _ => operand.exists_tree_phrase
  have compiled : compile phrase.tokens = .ok (Tree.ofScope chain.tree?) :=
    (compile_phrase phrase _).mpr ⟨chain, none, (built _ _ _).trans behind, rfl⟩
  refine ⟨Tree.ofScope chain.tree?, written ▸ compiled, fun truth => ?_, ?_⟩
  · rw [value_of_compile compiled truth, Phrase.value?, Operand.valueFrom_phrase,
      Operand.valueFrom_phraseBehind truth connective others _
        fun operand _ => operand.valueFrom_phrase truth]
    rfl
  · rw [leaves_of_compile compiled, written, tokens, List.filterMap_append, Operand.leaves_tokens,
      Operand.leaves_tokensBehind connective others fun operand _ => operand.leaves_tokens]
    rfl

end Infix

end Detection

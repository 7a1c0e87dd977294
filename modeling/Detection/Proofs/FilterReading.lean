import Detection.Proofs.FilterLayout

/-!
# Reading a filter that is laid out

The tokens of a filter can be told from its parts. AND, OR and NOT are connectives except in
front of a closing parenthesis, where such a word is searched for like any other. A compiled
filter therefore has the leaves of its clauses, each under an odd number of NOTs or not as the
walk over the parts notes it, and besides them only words that stand alone in this way.
-/
namespace Detection.Spl

open Text Pattern Dialect

def loneWord (word : List Char) : Leaf :=
  .keyword .keyword (.text (String.ofList word)) {}

/-- The words that are read as tokens of their own. -/
inductive Spelt : List Char → Token → Prop
  | joiner (connective : Connective) : Spelt (joinerText connective) connective.token
  | negation : Spelt negationText .not

namespace Spelt

variable {word : List Char} {token : Token}

/-- In front of white space, an opening parenthesis or the end such a word is its token. -/
theorem step (spelt : Spelt word token) {rest : List Char}
    (ended : rest.head?.all (fun c => isSpace c || c == '(') = true) :
    dialect.step (word ++ rest) = .ok ([token], rest) := by
  have connected : dialect.connective? (word ++ rest) = some (token, rest) := by
    rcases spelt with ⟨_ | _⟩ | _ <;>
      simp [joinerText, negationText, connective?, dialect, Lexer.wordRest?, ended,
        Connective.token]
  rw [step.eq_def]
  rcases spelt with ⟨_ | _⟩ | _ <;> simp only [connected] <;> rfl

/-- In front of a closing parenthesis it is searched for. -/
theorem step_closing (spelt : Spelt word token) (rest : List Char) :
    dialect.step (word ++ ')' :: rest) = .ok ([.leaf (loneWord word)], ')' :: rest) := by
  have unconnected : dialect.connective? (word ++ ')' :: rest) = none := by
    rcases spelt with ⟨_ | _⟩ | _ <;> rfl
  have uncompared : dialect.comparison? (word ++ ')' :: rest) = .ok none := by
    have symbol (spaced : Bool) : dialect.symbolAfter? spaced (')' :: rest) = none := by
      cases spaced <;> rfl
    have field : dialect.field (word ++ ')' :: rest) = some (word, ')' :: rest) := by
      rcases spelt with ⟨_ | _⟩ | _ <;> rfl
    have behind : (')' :: rest).dropWhile isSpace = ')' :: rest := rfl
    rw [comparison?, head?, field]
    simp only [behind, symbol, Option.map_none]
  have searched : dialect.keyword? (word ++ ')' :: rest) =
      .ok (some ([.leaf (loneWord word)], ')' :: rest)) := by
    have plain : promoteWildcards .eq (String.ofList word).toList dialect.wildcard.toList =
        { operator := .eq, value := .text (String.ofList word) } := by
      rw [String.toList_ofList]
      rcases spelt with ⟨_ | _⟩ | _ <;> rfl
    have keyword : dialect.keyword (.text (String.ofList word)) = .leaf (loneWord word) := by
      simp only [Dialect.keyword, plain]
      rfl
    have bare : dialect.bareWord? false (word ++ ')' :: rest) = some (word, ')' :: rest) := by
      rcases spelt with ⟨_ | _⟩ | _ <;> rfl
    have found : dialect.keyword? (word ++ ')' :: rest) =
        .ok ((dialect.bareWord? false (word ++ ')' :: rest)).map fun read =>
          ([dialect.keyword (.text (String.ofList read.1))], read.2)) := by
      rcases spelt with ⟨_ | _⟩ | _ <;> rfl
    rw [found, bare, ← keyword]
    rfl
  rw [step.eq_def]
  rcases spelt with ⟨_ | _⟩ | _ <;> simp only [unconnected, uncompared, searched] <;> rfl

theorem visible (spelt : Spelt word token) :
    ∃ c letters, word = c :: letters ∧ isGap c = false := by
  rcases spelt with ⟨_ | _⟩ | _
  all_goals exact ⟨_, _, rfl, rfl⟩

end Spelt

/-- Whether a closing parenthesis comes next. -/
def closesNext : List Part → Bool
  | .closing :: _ => true
  | _ => false

/-- The token of a word in front of some parts. -/
def tokenBefore (word : List Char) (token : Token) (rest : List Part) : Token :=
  if closesNext rest then .leaf (loneWord word) else token

def tokens : List Part → List Token
  | [] => []
  | .gap .. :: rest => tokens rest
  | .opening :: rest => .opening :: tokens rest
  | .closing :: rest => .closing :: tokens rest
  | .joiner connective :: rest =>
    tokenBefore (joinerText connective) connective.token rest :: tokens rest
  | .negation :: rest => tokenBefore negationText .not rest :: tokens rest
  | .clause content :: rest => clauseTokens content.negated content.leaf ++ tokens rest

/-- A word in front of parts that can stand behind it. -/
theorem tokensFrom_word {word : List Char} {token : Token} (spelt : Spelt word token)
    {rest : List Part} (apart : ∀ part ∈ rest.head?, part.isWord = false)
    (read : dialect.tokensFrom (text rest) = .ok (tokens rest)) :
    dialect.tokensFrom (word ++ text rest) =
      .ok (tokenBefore word token rest :: tokens rest) := by
  have stepped : dialect.step (word ++ text rest) =
      .ok ([tokenBefore word token rest], text rest) := by
    cases rest with
    | nil => exact spelt.step rfl
    | cons part rest =>
      cases part with
      | gap c blank => exact spelt.step (by simp [Part.text, isSpace, blank])
      | opening => exact spelt.step rfl
      | closing => exact spelt.step_closing (text rest)
      | joiner | negation | clause => exact absurd (apart _ rfl) (by simp [Part.isWord])
  obtain ⟨c, letters, rfl, visible⟩ := spelt.visible
  have shorter : (text rest).length < (c :: letters ++ text rest).length := by
    rw [List.cons_append, List.length_cons, List.length_append]
    omega
  exact tokensFrom_step visible stepped shorter read

/-- A filter that is laid out has the tokens of its parts. -/
theorem tokensFrom_text {parts : List Part} {previous : Option Part}
    (spaced : Spaced previous parts) : dialect.tokensFrom (text parts) = .ok (tokens parts) := by
  induction parts generalizing previous with
  | nil => exact tokensFrom_nil
  | cons part rest ih =>
    obtain ⟨_, behind⟩ := spaced
    have read := ih behind
    cases part with
    | gap c blank => exact tokensFrom_gap blank read
    | opening =>
      have stepped : dialect.step ('(' :: text rest) = .ok ([.opening], text rest) := rfl
      exact tokensFrom_step rfl stepped (by simp) read
    | closing =>
      have stepped : dialect.step (')' :: text rest) = .ok ([.closing], text rest) := rfl
      exact tokensFrom_step rfl stepped (by simp) read
    | joiner connective => exact tokensFrom_word (.joiner connective) (behind.apart rfl) read
    | negation => exact tokensFrom_word .negation (behind.apart rfl) read
    | clause content =>
      refine content.reads (text rest) (tokens rest) ?_ read
      cases rest with
      | nil => rfl
      | cons next rest =>
        cases next with
        | gap c blank => simp [Part.text, atBoundary, blank]
        | closing => rfl
        | opening | joiner | negation | clause =>
          exact absurd behind.1 (by simp [Part.meets, Part.isWord])

/-- So a filter that is laid out can be read. -/
theorem tokenize_text {parts : List Part} (spaced : Spaced none parts) :
    dialect.tokenize (String.ofList (text parts)) =
      .ok (Token.insertImplicitAnds (tokens parts)) := by
  rw [tokenize, String.toList_ofList, tokensFrom_text spaced]
  rfl

/-- A compiled filter has the leaves of its tokens. -/
theorem signedLeaves_of_parts {parts : List Part} {tree : Tree}
    (compiled : compile (Token.insertImplicitAnds (tokens parts)) = .ok tree) :
    tree.signedLeaves false = Token.signedLeaves false 0 [] (tokens parts) := by
  rw [signedLeaves_of_compile compiled]
  exact Token.signedLeaves_insertImplicitAnds _ _ _ _

/-- The leaf of a clause, with whether an odd number of NOTs stands around it. -/
def signedLeaf (entry : Bool × Clause) : Bool × Leaf :=
  (entry.1 != entry.2.negated, entry.2.leaf)

/-- The tokens of a clause are its leaf, under one more NOT if it stands for the complement. -/
theorem signedLeaves_clause (content : Clause) (odd : Bool) (negations : Nat) (outer : List Bool)
    (rest : List Token) :
    Token.signedLeaves odd negations outer (clauseTokens content.negated content.leaf ++ rest) =
      signedLeaf (negatedValue negations odd, content) ::
        Token.signedLeaves odd 0 outer rest := by
  cases stands : content.negated with
  | false => simp [clauseTokens, signedLeaf, stands, Token.signedLeaves]
  | true =>
    simp [clauseTokens, signedLeaf, stands, Token.signedLeaves, negatedValue, negatedValue_not]

/-- Behind a clause no NOT waits any more, and the scopes around are the same. -/
theorem step_clause {standing next : Standing} {content : Clause} {own : List (Bool × Clause)}
    (stepped : standing.step (.clause content) = some (next, own)) :
    next.odd = standing.odd ∧ next.negations = 0 ∧
      next.scopes.map Prod.fst = standing.scopes.map Prod.fst ∧
      own = [(negatedValue standing.negations standing.odd, content)] := by
  cases selects : content.isSelector with
  | true =>
    simp only [Standing.step, selects, ↓reduceIte, Option.ite_none_right_eq_some,
      Option.some.injEq, Prod.mk.injEq] at stepped
    obtain ⟨none, rfl, rfl⟩ := stepped
    exact ⟨rfl, none, rfl, by rw [none]; rfl⟩
  | false =>
    simp only [Standing.step, selects, Bool.false_eq_true, ↓reduceIte,
      Option.some.injEq, Prod.mk.injEq] at stepped
    obtain ⟨rfl, rfl⟩ := stepped
    exact ⟨rfl, rfl, by simp, rfl⟩

/-- A parenthesis is closed where no NOT waits for an operand, and where its scope has a clause
that is kept if it stands behind a NOT. -/
theorem step_closed {standing next : Standing} {own : List (Bool × Clause)}
    (stepped : standing.step .closing = some (next, own)) :
    ∃ odd around outer, standing = { odd, scopes := (around, false) :: outer } ∧
      next = { odd := around, scopes := outer } ∧ own = [] := by
  obtain ⟨odd, negations, scopes⟩ := standing
  dsimp only [Standing.step] at stepped
  split at stepped
  · next around outer =>
    cases stepped
    exact ⟨odd, around, outer, rfl, rfl, rfl⟩
  · cases stepped

/-- Words that stand alone in a filter. -/
def IsLone (leaf : Leaf) : Prop :=
  ∃ connective, leaf = loneWord (joinerText connective)

/-- Where the walk gets over some parts, their leaves are those of the clauses that it finds,
and words that stand alone. -/
theorem signedLeaves_run {parts : List Part} {standing last : Standing}
    {clauses : List (Bool × Clause)} (walked : run standing parts = some (last, clauses)) :
    (∀ entry ∈ Token.signedLeaves standing.odd standing.negations
        (standing.scopes.map Prod.fst) (tokens parts),
      entry ∈ clauses.map signedLeaf ∨ IsLone entry.2) ∧
    ∀ entry ∈ clauses, signedLeaf entry ∈ Token.signedLeaves standing.odd standing.negations
      (standing.scopes.map Prod.fst) (tokens parts) := by
  induction parts generalizing standing clauses with
  | nil =>
    cases walked
    simp [tokens, Token.signedLeaves]
  | cons part rest ih =>
    obtain ⟨next, own, others, stepped, behind, rfl⟩ := run_cons.mp walked
    obtain ⟨known, found⟩ := ih behind
    cases part with
    | gap =>
      cases stepped
      exact ⟨known, found⟩
    | opening =>
      cases stepped
      exact ⟨known, found⟩
    | closing =>
      obtain ⟨odd, around, outer, rfl, rfl, rfl⟩ := step_closed stepped
      exact ⟨known, found⟩
    | joiner connective =>
      simp only [Standing.step, Option.ite_none_right_eq_some, Option.some.injEq,
        Prod.mk.injEq] at stepped
      obtain ⟨none, rfl, rfl⟩ := stepped
      rw [none] at known found ⊢
      rw [tokens, tokenBefore]
      split
      · rw [Token.signedLeaves]
        exact ⟨List.forall_mem_cons.mpr ⟨.inr ⟨connective, rfl⟩, known⟩,
          fun entry listed => List.mem_cons_of_mem _ (found entry listed)⟩
      · cases connective <;> exact ⟨known, found⟩
    | negation =>
      cases stepped
      have operand : closesNext rest = false := by
        rcases rest with _ | ⟨_ | _ | _ | _ | _ | _, others⟩
        case cons.closing => simp [run, Standing.step] at behind
        all_goals rfl
      rw [tokens, tokenBefore, operand]
      exact ⟨known, found⟩
    | clause content =>
      obtain ⟨odd, negations, scopes, rfl⟩ := step_clause stepped
      rw [odd, negations, scopes] at known found
      rw [tokens, signedLeaves_clause]
      constructor
      · rintro entry (_ | ⟨_, listed⟩)
        · exact .inl (by simp)
        · exact (known entry listed).imp_left fun own => by simp_all
      · rintro entry (_ | ⟨_, listed⟩)
        · exact List.mem_cons_self
        · exact List.mem_cons_of_mem _ (found entry listed)

end Detection.Spl

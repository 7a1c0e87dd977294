import Detection.Proofs.ImplicitAnds

/-!
# Delimited negations

Before a query is compiled every leaf behind a NOT is put between parentheses. The pass looks at
two neighbours at a time, as the pass that puts in the implicit ANDs does, and each of the two
puts in tokens that the other one looks at. They do not disturb each other: a parenthesis closes an
operand as the leaf in front of it does, so that an AND belongs behind the one where it belongs
behind the other, and no AND belongs behind a NOT, so that a NOT keeps its neighbour.

What the pass leaves is described by neighbours as well. A query in which no leaf stands right
behind a NOT is left as it is.
-/
namespace Detection

namespace Token

def isParenthesis (token : Token) : Bool :=
  token.isOpening || token.isClosing

/-- A leaf right behind a NOT. -/
def Bare (first second : Token) : Prop :=
  first = .not ∧ ∃ content, second = .leaf content

/-- A token stays in its place if it is no NOT in front of a leaf. -/
theorem delimitNegations_cons_of_not_bare {token : Token} {rest : List Token}
    (delimited : ∀ second ∈ rest.head?, ¬ Bare token second) :
    delimitNegations (token :: rest) = token :: delimitNegations rest := by
  refine delimitNegations_cons token rest fun content behind written => ?_
  obtain ⟨rfl, rfl⟩ := written
  exact delimited (.leaf content) rfl ⟨rfl, content, rfl⟩

theorem head?_delimitNegations (tokens : List Token) :
    (delimitNegations tokens).head? = tokens.head? := by
  fun_cases delimitNegations tokens <;> rfl

/-- Behind the pass no leaf stands right behind a NOT. -/
theorem isChain_delimitNegations (tokens : List Token) :
    (delimitNegations tokens).IsChain fun first second => ¬ Bare first second := by
  fun_induction delimitNegations tokens with
  | case1 content rest ih =>
    have behind : (Token.closing :: delimitNegations rest).IsChain fun first second =>
        ¬ Bare first second :=
      List.isChain_cons.mpr ⟨fun second _ => by simp [Bare], ih⟩
    exact .cons_cons (by simp [Bare]) (.cons_cons (by simp [Bare]) (.cons_cons (by simp [Bare])
      behind))
  | case2 token rest other ih =>
    refine List.isChain_cons.mpr ⟨fun second first => ?_, ih⟩
    rw [head?_delimitNegations] at first
    rintro ⟨rfl, content, rfl⟩
    obtain ⟨behind, rfl⟩ := List.head?_eq_some_iff.mp first
    exact other content behind rfl rfl
  | case3 => exact .nil

/-- Where no leaf stands right behind a NOT there is nothing to do. -/
theorem delimitNegations_of_isChain {tokens : List Token}
    (delimited : tokens.IsChain fun first second => ¬ Bare first second) :
    delimitNegations tokens = tokens := by
  induction tokens with
  | nil => rfl
  | cons token rest ih =>
    obtain ⟨apart, behind⟩ := List.isChain_cons.mp delimited
    rw [delimitNegations_cons_of_not_bare apart, ih behind]

/-- Only parentheses are put in. -/
theorem filter_delimitNegations (tokens : List Token) :
    (delimitNegations tokens).filter (!·.isParenthesis) = tokens.filter (!·.isParenthesis) := by
  fun_induction delimitNegations tokens with
  | case1 content rest ih =>
    exact congrArg (fun others => not :: leaf content :: others) ih
  | case2 token rest _ ih =>
    rw [List.filter_cons, List.filter_cons, ih]
  | case3 => rfl

/-- Each parenthesis that is put in is closed again behind one token, so that the scopes that are
open in front of the query are closed by it as before. -/
theorem closes_delimitNegations (tokens : List Token) (depth : Nat) :
    Closes depth (delimitNegations tokens) ↔ Closes depth tokens := by
  fun_induction delimitNegations tokens generalizing depth with
  | case1 content rest ih =>
    rw [Closes.other_iff rfl rfl, Closes.opening_iff, Closes.other_iff rfl rfl, Closes.closing_iff,
      ih, Closes.other_iff rfl rfl, Closes.other_iff rfl rfl]
  | case2 token rest _ ih =>
    cases token with
    | opening => rw [Closes.opening_iff, Closes.opening_iff, ih]
    | closing =>
      cases depth with
      | zero =>
        refine iff_of_false (fun closes => ?_) (fun closes => ?_)
        · simpa using closes.exists_of_closing
        · simpa using closes.exists_of_closing
      | succ => rw [Closes.closing_iff, Closes.closing_iff, ih]
    | leaf | and | or | not | stray =>
      rw [Closes.other_iff rfl rfl, Closes.other_iff rfl rfl, ih]
  | case3 => rfl

/-- Of the token in front of a query only matters whether an operand ends with it. -/
theorem insertAndsAfter_congr {previous other : Token}
    (same : previous.endsOperand = other.endsOperand) (tokens : List Token) :
    insertAndsAfter previous tokens = insertAndsAfter other tokens := by
  cases tokens with
  | nil => rfl
  | cons => rw [insertAndsAfter, insertAndsAfter, same]

/-- Behind a token that ends no operand the query starts as it did. -/
theorem head?_insertAndsAfter {previous : Token} (other : previous.endsOperand = false)
    (tokens : List Token) : (insertAndsAfter previous tokens).head? = tokens.head? := by
  cases tokens with
  | nil => rfl
  | cons => simp [insertAndsAfter, other]

/-- The two passes can be made in either order. -/
theorem delimitNegations_insertAndsAfter (previous : Token) (tokens : List Token) :
    delimitNegations (insertAndsAfter previous tokens) =
      insertAndsAfter previous (delimitNegations tokens) := by
  -- An AND that is put in front of a query is no NOT and does not hide one.
  have joined {token : Token} {before after : List Token}
      (same : delimitNegations (token :: before) = token :: after) (joins : Bool) :
      delimitNegations (if joins then and :: token :: before else token :: before) =
        if joins then and :: token :: after else token :: after := by
    cases joins with
    | false => exact same
    | true =>
      refine (delimitNegations_cons_of_not_bare fun second _ => by simp [Bare]).trans ?_
      exact congrArg (and :: ·) same
  fun_induction delimitNegations tokens generalizing previous with
  | case1 content rest ih =>
    have ends : closing.endsOperand = (leaf content).endsOperand := rfl
    have wrapped :
        delimitNegations (.not :: .leaf content :: insertAndsAfter (.leaf content) rest) =
        .not :: .opening :: .leaf content :: .closing ::
          insertAndsAfter .closing (delimitNegations rest) := by
      rw [delimitNegations, ih, insertAndsAfter_congr ends]
    exact joined wrapped (previous.endsOperand && startsOperand .not)
  | case2 token rest other ih =>
    have kept : delimitNegations (token :: insertAndsAfter token rest) =
        token :: insertAndsAfter token (delimitNegations rest) := by
      rw [← ih]
      refine delimitNegations_cons_of_not_bare fun second first => ?_
      rintro ⟨rfl, content, rfl⟩
      rw [head?_insertAndsAfter rfl] at first
      obtain ⟨behind, rfl⟩ := List.head?_eq_some_iff.mp first
      exact other content behind rfl rfl
    exact joined kept (previous.endsOperand && token.startsOperand)
  | case3 => rfl

end Token

/-- For every query the pass over the NOTs leaves no leaf right behind a NOT, and a second time it
changes nothing. It adds only parentheses, and these are balanced behind the pass if and only if
they are in front of it. It can be made before the implicit ANDs are put in or after that. -/
theorem negations_delimited (tokens : List Token) :
    Token.delimitNegations (Token.delimitNegations tokens) = Token.delimitNegations tokens ∧
    (∀ before content after,
      Token.delimitNegations tokens ≠ before ++ .not :: .leaf content :: after) ∧
    (Token.delimitNegations tokens).filter (!·.isParenthesis) =
      tokens.filter (!·.isParenthesis) ∧
    (Balanced (Token.delimitNegations tokens) ↔ Balanced tokens) ∧
    Token.delimitNegations (Token.insertImplicitAnds tokens) =
      Token.insertImplicitAnds (Token.delimitNegations tokens) := by
  have delimited := Token.isChain_delimitNegations tokens
  refine ⟨Token.delimitNegations_of_isChain delimited, fun before content after written => ?_,
    Token.filter_delimitNegations tokens, ?_, ?_⟩
  · exact List.isChain_iff_forall_rel_of_append_cons_cons.mp delimited written ⟨rfl, content, rfl⟩
  · rw [balanced_iff_closes, balanced_iff_closes]
    exact Token.closes_delimitNegations tokens 0
  · rw [Token.insertImplicitAnds_eq, Token.insertImplicitAnds_eq]
    exact Token.delimitNegations_insertAndsAfter .and tokens

end Detection

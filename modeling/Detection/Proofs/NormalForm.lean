import Detection.Proofs.Compilation

/-!
# The normal form of condition trees

The compiler returns trees of one shape: the AND of nothing, the group around a lone leaf,
or a group in which every AND and OR has at least two members, every NOT has one, and the
group without a connective does not occur. Every tree of that shape is the outcome of some
query, and one such query can be read off the tree: members one behind another with the
connective of their group between them, groups among them in parentheses, and NOT in front
of its member in parentheses.

That the query compiles to exactly this tree, not only to one with the same value, rests on
the parentheses. They keep an AND inside an AND apart, which a run of connectives would
merge, and a scope with a single operand is that operand.
-/
namespace Detection

namespace Tree

/-- The shape of compiled trees. -/
def Normal (tree : Tree) : Prop :=
  tree = .group .and [] ∨ (∃ content, tree = .group .single [.leaf content]) ∨
    (tree.Inner ∧ ∃ kind members, tree = .group kind members)

/-- The tokens of a member, in parentheses if it is a group. -/
def delimited : Tree → List Token → List Token
  | leaf _, inside => inside
  | group .., inside => .opening :: (inside ++ [.closing])

mutual

/-- The tokens of a tree in the order of its leaves. -/
def linear : Tree → List Token
  | leaf content => [.leaf content]
  | group .not [] => [.not]
  | group .not (member :: _) => .not :: .opening :: (member.linear ++ [.closing])
  | group .or members => linearAll .or members
  | group _ members => linearAll .and members

/-- The tokens of the members of a group with its connective between each two. -/
def linearAll (connective : Connective) : List Tree → List Token
  | [] => []
  | [last] => last.delimited last.linear
  | first :: second :: others =>
    first.delimited first.linear ++ connective.token :: linearAll connective (second :: others)

end

/-- The members of an AND or OR are joined by its connective. -/
theorem linear_kind (connective : Connective) (members : List Tree) :
    (group connective.kind members).linear = linearAll connective members := by
  cases connective <;> simp only [Connective.kind, linear]

end Tree

/-- A connective is taken in where no NOT waits. -/
theorem compileFrom_connective (connective : Connective) (position : Nat) {frame : Frame}
    (none : frame.negations = []) (outer : List Frame) (rest : List Token) :
    compileFrom position frame outer (connective.token :: rest) =
      compileFrom (position + 1) { frame with pending := some connective } outer rest := by
  cases connective <;> rw [Connective.token, compileFrom, expectOperands_bind frame none]

/-- Join several operands by one connective. -/
def Chain.addAll (connective : Connective) : List Tree → Chain → Chain
  | [], chain => chain
  | operand :: others, chain => addAll connective others (chain.add connective operand)

/-- Operands behind a chain that is joined by the same connective are added to it. -/
theorem Chain.addAll_joined (connective : Connective) (operands others : List Tree) :
    addAll connective others (.joined connective operands) =
      .joined connective (operands ++ others) := by
  induction others generalizing operands with
  | nil => simp [addAll]
  | cons operand others ih => simp [addAll, add, ih]

/-- The walk over the tokens of a tree in a new scope ends with a chain for that tree. -/
def Builds (tree : Tree) : Prop :=
  ∀ position outer rest, ∃ after chain, chain.tree? = some tree ∧
    compileFrom position {} outer (tree.linear ++ rest) =
      compileFrom after { chain } outer rest

namespace Builds

/-- The tokens of a tree in parentheses are read as the tree. -/
theorem scope {tree : Tree} (builds : Builds tree) (position : Nat) (frame : Frame)
    (outer : List Frame) (rest : List Token) :
    ∃ after, compileFrom position frame outer (.opening :: (tree.linear ++ .closing :: rest)) =
      compileFrom after (frame.add tree) outer rest := by
  obtain ⟨closing, chain, finished, walked⟩ :=
    builds (position + 1) (frame :: outer) (.closing :: rest)
  refine ⟨closing + 1, ?_⟩
  rw [compileFrom, walked, compileFrom, expectOperands_bind _ rfl]
  simp only [finished, Frame.addScope]
  rfl

/-- The tokens of a member are read as the member. -/
theorem operand {tree : Tree} (builds : Builds tree) (position : Nat) (frame : Frame)
    (outer : List Frame) (rest : List Token) :
    ∃ after, compileFrom position frame outer (tree.delimited tree.linear ++ rest) =
      compileFrom after (frame.add tree) outer rest := by
  cases tree with
  | leaf => exact ⟨position + 1, rfl⟩
  | group =>
    rw [Tree.delimited, List.cons_append, List.append_assoc]
    exact builds.scope position frame outer rest

/-- The tokens of the members of a group are read one after another, each joined to those
before it by the connective of the group. -/
theorem members (connective : Connective) {first : Tree} {others : List Tree}
    (builds : ∀ member ∈ first :: others, Builds member) (position : Nat) (frame : Frame)
    (outer : List Frame) (rest : List Token) :
    ∃ after, compileFrom position frame outer
        (Tree.linearAll connective (first :: others) ++ rest) =
      compileFrom after { chain := .addAll connective others (frame.add first).chain } outer
        rest := by
  induction others generalizing first position frame with
  | nil =>
    rw [Tree.linearAll]
    exact (builds first List.mem_cons_self).operand position frame outer rest
  | cons second others ih =>
    rw [List.forall_mem_cons] at builds
    rw [Tree.linearAll, List.append_assoc, List.cons_append]
    obtain ⟨behind, firstRead⟩ := builds.1.operand position frame outer
      (connective.token :: (Tree.linearAll connective (second :: others) ++ rest))
    obtain ⟨after, othersRead⟩ := ih builds.2 (behind + 1)
      { frame.add first with pending := some connective }
    refine ⟨after, ?_⟩
    rw [firstRead, compileFrom_connective connective behind rfl, othersRead]
    rfl

/-- The tokens of every tree below the root of a normal one are read as that tree. -/
theorem of_inner {tree : Tree} (inner : tree.Inner) : Builds tree := by
  induction inner with
  | leaf content => exact fun position outer rest => ⟨position + 1, .lone (.leaf content), rfl, rfl⟩
  | negation member inner ih =>
    intro position outer rest
    obtain ⟨after, walked⟩ := ih.scope (position + 1)
      { negations := [position] } outer rest
    refine ⟨after, .lone (.group .not [member]), rfl, ?_⟩
    rw [Tree.linear, List.cons_append, List.cons_append, List.append_assoc, compileFrom]
    exact walked
  | joined connective members several each ih =>
    intro position outer rest
    obtain ⟨first, second, others, rfl⟩ :
        ∃ first second others, members = first :: second :: others := by
      rcases members with _ | ⟨first, _ | ⟨second, others⟩⟩
      · simp at several
      · simp at several
      · exact ⟨first, second, others, rfl⟩
    obtain ⟨after, walked⟩ := Builds.members connective ih position {} outer rest
    have chain : Chain.addAll connective (second :: others) (Frame.add {} first).chain =
        .joined connective (first :: second :: others) :=
      Chain.addAll_joined connective [first, second] others
    refine ⟨after, .joined connective (first :: second :: others), rfl, ?_⟩
    rw [Tree.linear_kind, walked, chain]

end Builds

theorem normal_of_compile {tokens : List Token} {tree : Tree}
    (compiled : compile tokens = .ok tree) : tree.Normal := by
  obtain ⟨scope, rfl, ⟨rfl, _⟩ | ⟨inner, rfl, shape, _⟩⟩ := compile_scope compiled
  · exact .inl rfl
  · cases inner with
    | leaf content => exact .inr (.inl ⟨content, rfl⟩)
    | group kind members => exact .inr (.inr ⟨shape, kind, members, rfl⟩)

theorem compile_linear {tree : Tree} (normal : tree.Normal) : compile tree.linear = .ok tree := by
  rw [compile_ok_iff]
  rcases normal with rfl | ⟨content, rfl⟩ | ⟨inner, kind, members, rfl⟩
  · exact ⟨none, by simp [Tree.linear, Tree.linearAll, compileFrom, Frame.expectOperands,
      Chain.tree?, bind, Except.bind, pure, Except.pure], rfl⟩
  · exact ⟨some (.leaf content), by simp [Tree.linear, Tree.linearAll, Tree.delimited, compileFrom,
      Frame.expectOperands, Frame.add, Chain.add, Chain.tree?, bind, Except.bind, pure,
      Except.pure], rfl⟩
  · obtain ⟨after, chain, finished, walked⟩ := Builds.of_inner inner 0 [] []
    refine ⟨some (.group kind members), ?_, rfl⟩
    rw [List.append_nil] at walked
    rw [walked, compileFrom, expectOperands_bind _ rfl, finished]
    rfl

/-- The trees that the compiler returns are the normal ones: whatever compiles gives a normal
tree, and every normal tree is given back, as it is, by the tokens that are read off it. -/
theorem compile_normal_form :
    (∀ tokens tree, compile tokens = .ok tree → tree.Normal) ∧
    (∀ tree : Tree, tree.Normal → compile tree.linear = .ok tree) :=
  ⟨fun _ _ compiled => normal_of_compile compiled, fun _ normal => compile_linear normal⟩

/-- The theorem at an AND inside an AND beside a NOT of a NOT of an OR. Its tokens are
`(a AND b) AND (NOT (NOT (c OR d)))`. -/
theorem compile_normal_form_nested :
    let word (text : String) : Leaf := .keyword .keyword (.text text) {}
    let tokens : List Token := [.opening, .leaf (word "a"), .and, .leaf (word "b"), .closing, .and,
      .opening, .not, .opening, .not, .opening, .leaf (word "c"), .or, .leaf (word "d"), .closing,
      .closing, .closing]
    let tree : Tree := .group .and [.group .and [.leaf (word "a"), .leaf (word "b")],
      .group .not [.group .not [.group .or [.leaf (word "c"), .leaf (word "d")]]]]
    tree.linear = tokens ∧ tree.Normal ∧ compile tokens = .ok tree := by
  intro word tokens tree
  have linear : tree.linear = tokens := rfl
  have normal : tree.Normal := compile_normal_form.1 tokens tree rfl
  exact ⟨linear, normal, linear ▸ compile_normal_form.2 tree normal⟩

end Detection

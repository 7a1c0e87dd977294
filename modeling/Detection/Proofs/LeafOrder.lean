import Detection.Proofs.Compilation
import Mathlib.Data.List.Induction

/-!
# The leaves and fields of a compiled query

Compiling a query arranges its leaves in a tree, and the tree read from left to right has the
leaves as the query has them. So it uses the same fields, and what is decided from the fields of
the tokens, such as the mapping of a query, is decided for the tree as well.

The fields are listed in the order of their first use. The list is made by a scan that keeps a
name when it is new, and `FirstUses` says without a scan which list that is.
-/
namespace Detection

/-- The distinct names among all the uses, each at the place of its first use. -/
structure FirstUses (uses names : List String) : Prop where
  /-- The names that are listed are those that are used. -/
  members (name : String) : name ∈ names ↔ name ∈ uses
  /-- A name stands in front of those whose first use comes later. -/
  order : names.Pairwise fun earlier later => uses.idxOf earlier < uses.idxOf later

namespace FirstUses

theorem nodup {uses names : List String} (first : FirstUses uses names) : names.Nodup := by
  refine first.order.imp fun before same => ?_
  rw [same] at before
  exact Nat.lt_irrefl _ before

theorem unique {uses left right : List String} (first : FirstUses uses left)
    (second : FirstUses uses right) : left = right := by
  have same : left.Perm right := by
    refine (List.perm_ext_iff_of_nodup first.nodup second.nodup).mpr fun name => ?_
    rw [first.members, second.members]
  exact same.eq_of_pairwise (fun _ _ _ _ before behind => absurd behind (Nat.lt_asymm before))
    first.order second.order

/-- One more use of a name adds the name if it is new. -/
theorem concat {uses names : List String} (first : FirstUses uses names) (name : String) :
    FirstUses (uses ++ [name]) (if name ∈ uses then names else names ++ [name]) := by
  -- What has been used keeps its place.
  have kept : names.Pairwise fun earlier later =>
      (uses ++ [name]).idxOf earlier < (uses ++ [name]).idxOf later := by
    refine first.order.imp_of_mem fun {earlier later} earlierListed laterListed before => ?_
    rwa [List.idxOf_append_of_mem ((first.members earlier).mp earlierListed),
      List.idxOf_append_of_mem ((first.members later).mp laterListed)]
  by_cases used : name ∈ uses
  · rw [if_pos used]
    refine ⟨fun other => ?_, kept⟩
    rw [first.members, List.mem_append, List.mem_singleton]
    exact ⟨.inl, fun either => either.elim id fun same => same ▸ used⟩
  · rw [if_neg used]
    refine ⟨fun other => by simp [first.members], ?_⟩
    rw [List.pairwise_append]
    refine ⟨kept, List.pairwise_singleton _ _, fun earlier listed later last => ?_⟩
    have earlierUsed : earlier ∈ uses := (first.members earlier).mp listed
    rw [List.mem_singleton.mp last, List.idxOf_append_of_mem earlierUsed,
      List.idxOf_append_of_notMem used]
    exact Nat.lt_add_right _ (List.idxOf_lt_length_of_mem earlierUsed)

theorem eraseDups (uses : List String) : FirstUses uses uses.eraseDups := by
  -- The scan meets the last use at its end, so the induction is from the right.
  induction uses using List.reverseRecOn with
  | nil => exact ⟨by simp, by simp⟩
  | append_singleton front name ih =>
    have scanned : (front ++ [name]).eraseDups =
        if name ∈ front then front.eraseDups else front.eraseDups ++ [name] := by
      by_cases used : name ∈ front <;>
        simp [List.eraseDups_append, List.eraseDups_cons, List.removeAll, used]
    rw [scanned]
    exact ih.concat name

end FirstUses

def Token.fieldName? (token : Token) : Option String :=
  token.leaf?.bind Leaf.fieldName?

/-- The tree of a query that compiles has the leaves of the query, none lost, repeated or moved,
and the fields of the query, which are listed in the order of their first use. -/
theorem compile_keeps_order (tokens : List Token) (tree : Tree)
    (compiled : compile tokens = .ok tree) :
    tree.leaves = tokens.filterMap Token.leaf? ∧
    tree.fieldNames = Token.fieldNames tokens ∧
    ∀ names, FirstUses (tokens.filterMap Token.fieldName?) names ↔ names = tree.fieldNames := by
  have leaves := leaves_of_compile compiled
  have fields : tree.fieldNames = Token.fieldNames tokens := by
    rw [Tree.fieldNames, leaves, Token.fieldNames]
  have listed : FirstUses (tokens.filterMap Token.fieldName?) tree.fieldNames := by
    rw [fields, Token.fieldNames, List.filterMap_filterMap]
    exact .eraseDups _
  exact ⟨leaves, fields, fun names => ⟨fun first => first.unique listed, fun same => same ▸ listed⟩⟩

/-- The theorem at `b = 1 () OR NOT a = 2 AND w AND NOT (b = 3)`, where a field is used twice, a
parenthesis is empty and a leaf has no field. -/
theorem compile_keeps_order_repeated :
    let compared (field value : String) : Leaf := .comparison ⟨field, []⟩ .eq (.text value) {}
    let word : Leaf := .keyword .keyword (.text "w") {}
    let tokens : List Token := [.leaf (compared "b" "1"), .opening, .closing, .or, .not,
      .leaf (compared "a" "2"), .and, .leaf word, .and, .not, .opening, .leaf (compared "b" "3"),
      .closing]
    let tree : Tree := .group .and [
      .group .or [.leaf (compared "b" "1"), .group .not [.leaf (compared "a" "2")]],
      .leaf word, .group .not [.leaf (compared "b" "3")]]
    compile tokens = .ok tree ∧
    tree.leaves = [compared "b" "1", compared "a" "2", word, compared "b" "3"] ∧
    tree.fieldNames = Token.fieldNames tokens ∧
    ∀ names, FirstUses ["b", "a", "b"] names ↔ names = ["b", "a"] := by
  intro compared word tokens tree
  obtain ⟨leaves, fields, first⟩ := compile_keeps_order tokens tree rfl
  exact ⟨rfl, leaves, fields, first⟩

end Detection

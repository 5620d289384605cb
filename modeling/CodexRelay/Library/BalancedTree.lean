import Mathlib

/-!
Contract: balanced binary trees over a list of leaves whose last node is doubled on every level of
odd length.

Owns:
- `parents`, one level of such a tree, and `top`, the node after a number of levels;
- `fullParents`, the nodes of the next level that no further leaf changes;
- `settled`, the nodes that are needed for the levels above once more leaves come.
-/

namespace CodexRelay.Library.BalancedTree

open List

variable {α : Type*} (join : α → α → α)

def parents : List α → List α
  | [] => []
  | [last] => [join last last]
  | left :: right :: rest => join left right :: parents rest

/-- The nodes of the next level both of whose children are there. -/
def fullParents : List α → List α
  | left :: right :: rest => join left right :: fullParents rest
  | _ => []

/-- The nodes without a sibling on each level, from the leaves up. -/
def settled : Nat → List α → List α
  | 0, _ => []
  | depth + 1, nodes =>
    (if nodes.length % 2 = 1 then nodes.getLast?.toList else []) ++
      settled depth (fullParents join nodes)

@[simp] theorem length_parents (nodes : List α) :
    (parents join nodes).length = (nodes.length + 1) / 2 := by
  induction nodes using parents.induct with
  | case1 => simp [parents]
  | case2 last => simp [parents]
  | case3 left right rest ih =>
    simp only [parents, length_cons, ih]
    omega

@[simp] theorem length_fullParents (nodes : List α) :
    (fullParents join nodes).length = nodes.length / 2 := by
  induction nodes using parents.induct with
  | case1 => simp [fullParents]
  | case2 last => simp [fullParents]
  | case3 left right rest ih =>
    simp only [fullParents, length_cons, ih]
    omega

/-! ### One more leaf -/

section

variable {nodes : List α} (even : nodes.length % 2 = 0)

include even

theorem parents_append (right : List α) :
    parents join (nodes ++ right) = fullParents join nodes ++ parents join right := by
  induction nodes using parents.induct with
  | case1 => rfl
  | case2 only => simp at even
  | case3 left second rest ih =>
    have evenRest : rest.length % 2 = 0 := by
      simp only [length_cons] at even
      omega
    simp only [cons_append, parents, fullParents, ih evenRest]

theorem fullParents_append (right : List α) :
    fullParents join (nodes ++ right) = fullParents join nodes ++ fullParents join right := by
  induction nodes using parents.induct with
  | case1 => rfl
  | case2 only => simp at even
  | case3 left second rest ih =>
    have evenRest : rest.length % 2 = 0 := by
      simp only [length_cons] at even
      omega
    simp only [cons_append, fullParents, ih evenRest]

theorem parents_append_single (last : α) :
    parents join (nodes ++ [last]) = fullParents join nodes ++ [join last last] :=
  parents_append join even [last]

theorem fullParents_append_pair (left right : α) :
    fullParents join (nodes ++ [left] ++ [right]) = fullParents join nodes ++ [join left right] := by
  rw [append_assoc]
  exact fullParents_append join even [left, right]

/-- Without a node that is doubled, a level has full parents only. -/
theorem parents_eq_fullParents : parents join nodes = fullParents join nodes := by
  simpa [parents] using parents_append join even []

end

/-! ### The nodes that stay -/

theorem settled_succ_even {depth : Nat} {nodes : List α} (even : nodes.length % 2 = 0) :
    settled join (depth + 1) nodes = settled join depth (fullParents join nodes) := by
  rw [settled, if_neg (by omega), nil_append]

theorem settled_succ_odd {depth : Nat} {nodes : List α} (even : nodes.length % 2 = 0) (last : α) :
    settled join (depth + 1) (nodes ++ [last]) =
      last :: settled join depth (fullParents join nodes) := by
  rw [settled, if_pos (by rw [length_append, length_singleton]; omega),
    fullParents_append join even]
  simp [fullParents]

theorem settled_succ {depth : Nat} {nodes : List α} (lt : nodes.length < 2 ^ depth) :
    settled join (depth + 1) nodes = settled join depth nodes := by
  induction depth generalizing nodes with
  | zero =>
    have empty : nodes = [] := by simpa using lt
    simp [empty, settled]
  | succ depth ih =>
    have ltParents : (fullParents join nodes).length < 2 ^ depth := by
      rw [length_fullParents]
      omega
    rw [settled, ih ltParents, settled]

theorem settled_add {depth : Nat} {nodes : List α} (lt : nodes.length < 2 ^ depth) (more : Nat) :
    settled join (depth + more) nodes = settled join depth nodes := by
  induction more with
  | zero => rfl
  | succ more ih =>
    have reached : nodes.length < 2 ^ (depth + more) :=
      lt.trans_le (Nat.pow_le_pow_right (by decide) (Nat.le_add_right _ _))
    rw [← Nat.add_assoc, settled_succ join reached, ih]

theorem settled_eq {depth other : Nat} {nodes : List α} (lt : nodes.length < 2 ^ depth)
    (ltOther : nodes.length < 2 ^ other) : settled join depth nodes = settled join other nodes := by
  rcases Nat.le_total depth other with le | le
  · obtain ⟨more, rfl⟩ := Nat.exists_eq_add_of_le le
    exact (settled_add join lt more).symm
  · obtain ⟨more, rfl⟩ := Nat.exists_eq_add_of_le le
    exact settled_add join ltOther more

theorem length_iterate_parents {depth : Nat} {nodes : List α} (positive : 0 < nodes.length)
    (le : nodes.length ≤ 2 ^ depth) : ((parents join)^[depth] nodes).length = 1 := by
  induction depth generalizing nodes with
  | zero =>
    rw [Function.iterate_zero_apply]
    omega
  | succ depth ih =>
    rw [Function.iterate_succ_apply]
    apply ih
    · rw [length_parents]
      omega
    · rw [length_parents]
      omega

end CodexRelay.Library.BalancedTree

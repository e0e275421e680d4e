import Criteria.Tree.Basic

/-!
# Depth and conditions by recursion

The walks over pending nodes compute what recursion on the tree says: the depth is
the height, and the conditions are the leaves from left to right.

* `Tree.depth_eq_height`: the depth by recursion;
* `Tree.conditions_eq_leaves`: the conditions by recursion.
-/

namespace Criteria

namespace Tree

/-- The deepest level that pending nodes reach, each with the level of its root. -/
def reach : List (Tree × Nat) → Nat
  | [] => 0
  | (t, level) :: pending => max (level + t.height - 1) (reach pending)

theorem height_pos (t : Tree) : 0 < t.height := by
  cases t <;> simp [height]

/-- The walk keeps the maximum of what it has seen and what is still to come. -/
theorem deepestOf_eq (deepest : Nat) (pending : List (Tree × Nat)) :
    deepestOf deepest pending = max deepest (reach pending) := by
  fun_induction deepestOf deepest pending with
  | case1 => simp [reach]
  | case2 deepest c level pending ih =>
    rw [ih, reach, height, Nat.add_sub_cancel, Nat.max_assoc]
  | case3 deepest op left right level pending ih =>
    rw [ih]
    simp only [reach, height, Nat.add_right_comm level 1, ← Nat.add_assoc, Nat.add_sub_cancel]
    -- The root is no deeper than what is below it.
    rw [← Nat.add_max_add_left, Nat.max_assoc, ← Nat.max_assoc level,
      Nat.max_eq_right (Nat.le_add_right level _), ← Nat.max_assoc (level + right.height),
      Nat.max_comm (level + right.height)]

theorem depth_eq_height (t : Tree) : t.depth = t.height := by
  rw [depth, deepestOf_eq, reach, reach, Nat.add_sub_cancel_left, Nat.max_zero, Nat.zero_max]

theorem depth_leaf (c : Condition) : (leaf c).depth = 1 := depth_eq_height _

theorem conditionsOf_eq (pending : List Tree) :
    conditionsOf pending = pending.flatMap leaves := by
  fun_induction conditionsOf pending with
  | case1 => rfl
  | case2 c pending ih => rw [ih]; rfl
  | case3 op left right pending ih => rw [ih]; simp [leaves]

theorem conditions_eq_leaves (t : Tree) : t.conditions = t.leaves := by
  rw [conditions, conditionsOf_eq]
  simp

end Tree

end Criteria

import Criteria.Proofs.Tree.Walk
import Criteria.Tree.Edit

/-!
# Edits by recursion

Another connective at the root and other values in the leaves keep the shape of a tree,
and with it the height.

* `Tree.assign_eq_mapLeaves`: the walk that puts a value into conditions by recursion;
* `height_mapLeaves`, `leaves_mapLeaves`, `height_setRoot`, `leaves_setRoot`: what an
  edit does to height and leaves.
-/

namespace Criteria

namespace Tree

/-! ## Other leaves -/

theorem height_mapLeaves (f : Condition → Condition) (t : Tree) :
    (t.mapLeaves f).height = t.height := by
  induction t with
  | leaf c => rfl
  | join op left right ih₁ ih₂ => rw [mapLeaves, height, height, ih₁, ih₂]

theorem isLeaf_mapLeaves (f : Condition → Condition) (t : Tree) :
    (t.mapLeaves f).isLeaf = t.isLeaf := by
  cases t <;> rfl

theorem leaves_mapLeaves (f : Condition → Condition) (t : Tree) :
    (t.mapLeaves f).leaves = t.leaves.map f := by
  induction t with
  | leaf c => rfl
  | join op left right ih₁ ih₂ => rw [mapLeaves, leaves, leaves, ih₁, ih₂, List.map_append]

theorem mapLeaves_eq_self {f : Condition → Condition} {t : Tree} (h : ∀ c ∈ t.leaves, f c = c) :
    t.mapLeaves f = t := by
  induction t with
  | leaf c => rw [mapLeaves, h c (List.mem_singleton.2 rfl)]
  | join op left right ih₁ ih₂ =>
    rw [leaves, List.forall_mem_append] at h
    rw [mapLeaves, ih₁ h.1, ih₂ h.2]

theorem mapLeaves_mapLeaves (f g : Condition → Condition) (t : Tree) :
    (t.mapLeaves f).mapLeaves g = t.mapLeaves fun c => g (f c) := by
  induction t with
  | leaf c => rfl
  | join op left right ih₁ ih₂ => rw [mapLeaves, mapLeaves, mapLeaves, ih₁, ih₂]

theorem fold_leaf_join (f : Condition → Condition) (t : Tree) :
    fold (fun c => .leaf (f c)) .join t = t.mapLeaves f := by
  induction t with
  | leaf c => rfl
  | join op left right ih₁ ih₂ => rw [fold, ih₁, ih₂, mapLeaves]

/-- Every leaf gets the value if it is on the field. -/
theorem assign_eq_mapLeaves (field : String) (value : Value) (t : Tree) :
    t.assign field value = t.mapLeaves (Condition.assign field value) := by
  rw [assign, walk?_eq_fold, Option.getD_some, fold_leaf_join]

/-! ## Another root -/

theorem height_setRoot (op : Connective) (t : Tree) : (t.setRoot op).height = t.height := by
  cases t <;> rfl

theorem leaves_setRoot (op : Connective) (t : Tree) : (t.setRoot op).leaves = t.leaves := by
  cases t <;> rfl

end Tree

end Criteria

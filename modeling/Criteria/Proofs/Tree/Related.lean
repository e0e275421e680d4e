import Criteria.Proofs.Tree.Edit
import Mathlib.Data.List.Forall2

/-!
# Trees of one shape

Two trees of one shape are compared place by place: their connectives by one relation, and
their conditions by another. Equality of trees is such a comparison, and so is what an edit
or a weaker rule has to do with the tree before.

* `Tree.Rel`: trees that are related place by place;
* `Tree.Rel.symm`, `Tree.Rel.trans`, `Tree.rel_refl`: which laws it has from its two relations;
* `Tree.Rel.mapLeaves`, `Tree.Rel.setRoot`: edits of both trees;
* `Tree.Rel.forall₂_leaves`: how their conditions are related;
* `Tree.rel_eq_iff`: the trees that are related by a change of the leaves.
-/

namespace Criteria.Tree

/-- Two trees of one shape, whose connectives and whose conditions are related place by
    place. -/
inductive Rel (R : Connective → Connective → Prop) (S : Condition → Condition → Prop) :
    Tree → Tree → Prop
  | leaf {c d : Condition} : S c d → Rel R S (.leaf c) (.leaf d)
  | join {op op' : Connective} {left left' right right' : Tree} : R op op' → Rel R S left left' →
    Rel R S right right' → Rel R S (.join op left right) (.join op' left' right')

variable {R : Connective → Connective → Prop} {S S' : Condition → Condition → Prop}
  {t u w : Tree} {f g : Condition → Condition}

namespace Rel

theorem symm (hR : ∀ {op op'}, R op op' → R op' op) (hS : ∀ {c d}, S c d → S d c)
    (h : Rel R S t u) : Rel R S u t := by
  induction h with
  | leaf h => exact .leaf (hS h)
  | join hop _ _ ih₁ ih₂ => exact .join (hR hop) ih₁ ih₂

theorem trans (hR : ∀ {op op' op''}, R op op' → R op' op'' → R op op'')
    (hS : ∀ {c d d'}, S c d → S d d' → S c d') (h : Rel R S t u) (h' : Rel R S u w) :
    Rel R S t w := by
  induction h generalizing w with
  | leaf h =>
    cases h' with
    | leaf h' => exact .leaf (hS h h')
  | join hop _ _ ih₁ ih₂ =>
    cases h' with
    | join hop' hleft hright => exact .join (hR hop hop') (ih₁ hleft) (ih₂ hright)

theorem mapLeaves (hS : ∀ {c d}, S c d → S' (f c) (g d)) (h : Rel R S t u) :
    Rel R S' (t.mapLeaves f) (u.mapLeaves g) := by
  induction h with
  | leaf h => exact .leaf (hS h)
  | join hop _ _ ih₁ ih₂ => exact .join hop ih₁ ih₂

theorem setRoot {op : Connective} (hop : R op op) (h : Rel R S t u) :
    Rel R S (t.setRoot op) (u.setRoot op) := by
  cases h with
  | leaf h => exact .leaf h
  | join _ hleft hright => exact .join hop hleft hright

theorem forall₂_leaves (h : Rel R S t u) : List.Forall₂ S t.leaves u.leaves := by
  induction h with
  | leaf h => exact .cons h .nil
  | join _ _ _ ih₁ ih₂ => exact List.rel_append ih₁ ih₂

end Rel

theorem rel_refl (hR : ∀ op, R op op) (hS : ∀ c ∈ t.leaves, S c c) : Rel R S t t := by
  induction t with
  | leaf c => exact .leaf (hS c (List.mem_singleton.2 rfl))
  | join op left right ih₁ ih₂ =>
    rw [leaves, List.forall_mem_append] at hS
    exact .join (hR op) (ih₁ hS.1) (ih₂ hS.2)

/-- Another connective at the root changes nothing else. -/
theorem rel_setRoot {op : Connective} (hop : ∀ op', R op' op) (hR : ∀ op, R op op)
    (hS : ∀ c ∈ t.leaves, S c c) : Rel R S t (t.setRoot op) := by
  cases t with
  | leaf c => exact rel_refl hR hS
  | join op' left right =>
    rw [leaves, List.forall_mem_append] at hS
    exact .join (hop op') (rel_refl hR hS.1) (rel_refl hR hS.2)

/-- A tree is related to one other tree by a function on the leaves: the tree with the leaves
    changed by it. -/
theorem rel_eq_iff : Rel Eq (fun c d => d = f c) t u ↔ u = t.mapLeaves f := by
  constructor
  · intro h
    induction h with
    | leaf h => rw [h, mapLeaves]
    | join hop _ _ ih₁ ih₂ => rw [hop, ih₁, ih₂, mapLeaves]
  · rintro rfl
    induction t with
    | leaf c => exact .leaf rfl
    | join op left right ih₁ ih₂ => exact .join rfl ih₁ ih₂

end Criteria.Tree

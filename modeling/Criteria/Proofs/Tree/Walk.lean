import Criteria.Tree.Walk

/-!
# Walks compute folds

A walk with a stack computes what recursion on the tree does: visiting a tree puts its
value on the results and leaves the frames behind it as they are.

* `Tree.walkOn_visit`: one visit in a walk;
* `Tree.walk?_eq_fold`: a walk never fails.
-/

namespace Criteria

namespace Tree

variable {α : Type} {leaf : Condition → α} {join : Connective → α → α → α}

/-- Visiting a tree puts its value on top of the results. -/
theorem walkOn_visit (t : Tree) (results : List α) (frames : List Frame) :
    walkOn leaf join results (.visit t :: frames) =
      walkOn leaf join (fold leaf join t :: results) frames := by
  induction t generalizing results frames with
  | leaf c => rw [walkOn, fold]
  | join op left right ih₁ ih₂ => rw [walkOn, ih₁, ih₂, walkOn, fold]

theorem walk?_eq_fold (t : Tree) : t.walk? leaf join = some (fold leaf join t) := by
  rw [walk?, walkOn_visit, walkOn, List.head?_cons]

end Tree

end Criteria

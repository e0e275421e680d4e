import Criteria.Tree.Walk

/-!
# Edits of a tree

Two edits, neither of which can fail: one where there is nothing to change leaves
the tree as it is.

* `Tree.setRoot`: another connective at the root;
* `Tree.assign`: another value in every condition on a field.
-/

namespace Criteria

/-- The condition with another value, if it is on the field. -/
def Condition.assign (field : String) (value : Value) (c : Condition) : Condition :=
  if c.field = field then { c with value := value } else c

namespace Tree

/-- The tree with another connective at its root, and nowhere else. -/
def setRoot (op : Connective) : Tree → Tree
  | .leaf c => .leaf c
  | .join _ left right => .join op left right

/-- The tree with each condition changed, by recursion. -/
def mapLeaves (f : Condition → Condition) : Tree → Tree
  | .leaf c => .leaf (f c)
  | .join op left right => .join op (left.mapLeaves f) (right.mapLeaves f)

/-- The tree with a value in every condition on the field. The whole tree is
    walked, and the value is kept as it is given. -/
def assign (field : String) (value : Value) (t : Tree) : Tree :=
  (t.walk? (fun c => .leaf (c.assign field value)) .join).getD t

end Tree

end Criteria

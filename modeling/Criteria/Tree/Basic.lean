import Criteria.Condition.Basic
import Criteria.Connective

/-!
# Rule trees

A rule is a binary tree: its leaves are conditions, and its inner nodes join two
rules. Trees may be deep, so that what walks over all of a tree keeps the nodes
that are still to be visited on a list, not on the call stack.

* `Tree.depth`, `Tree.conditions`: the levels and the conditions of a tree, over
  a list of pending nodes;
* `Tree.height`, `Tree.leaves`: the same two by recursion on the tree;
* `Tree.text`: the tree as a rule string.
-/

namespace Criteria

/-- A rule. -/
inductive Tree
  | leaf (condition : Condition)
  | join (op : Connective) (left right : Tree)
  deriving DecidableEq

namespace Tree

/-- Equal in shape and connectives, and in the leaves as conditions are. -/
def equal : Tree → Tree → Bool
  | .leaf c, .leaf d => c == d
  | .join op left right, .join op' left' right' =>
    op == op' && equal left left' && equal right right'
  | _, _ => false

instance : BEq Tree := ⟨equal⟩

/-! ## Parts -/

/-- Whether the tree is a single condition. -/
def isLeaf : Tree → Bool
  | .leaf _ => true
  | .join _ _ _ => false

/-- The connective at the root. -/
def rootConnective? : Tree → Option Connective
  | .leaf _ => none
  | .join op _ _ => some op

/-- The left part of a joined tree. -/
def left? : Tree → Option Tree
  | .leaf _ => none
  | .join _ left _ => some left

/-- The right part of a joined tree. -/
def right? : Tree → Option Tree
  | .leaf _ => none
  | .join _ _ right => some right

/-- The number of nodes. -/
def size : Tree → Nat
  | .leaf _ => 1
  | .join _ left right => left.size + right.size + 1

/-- The number of nodes of several trees. -/
def totalSize : List Tree → Nat
  | [] => 0
  | t :: trees => t.size + totalSize trees

/-! ## Walks over pending nodes -/

/-- The deepest level among `deepest` and the levels of the pending nodes, each of
    which is held with the level of its root. -/
def deepestOf (deepest : Nat) : List (Tree × Nat) → Nat
  | [] => deepest
  | (.leaf _, level) :: pending => deepestOf (max deepest level) pending
  | (.join _ left right, level) :: pending =>
    deepestOf (max deepest level) ((right, level + 1) :: (left, level + 1) :: pending)
termination_by pending => totalSize (pending.map (·.1))
decreasing_by all_goals simp [totalSize, size]; try omega

/-- The number of levels; a single condition has one. -/
def depth (t : Tree) : Nat := deepestOf 0 [(t, 1)]

/-- The conditions of the pending nodes, from left to right. -/
def conditionsOf : List Tree → List Condition
  | [] => []
  | .leaf c :: pending => c :: conditionsOf pending
  | .join _ left right :: pending => conditionsOf (left :: right :: pending)
termination_by pending => totalSize pending
decreasing_by all_goals simp [totalSize, size]; try omega

/-- The conditions of a tree, from left to right. -/
def conditions (t : Tree) : List Condition := conditionsOf [t]

/-! ## Recursive notions -/

/-- The number of levels of a tree, by recursion. -/
def height : Tree → Nat
  | .leaf _ => 1
  | .join _ left right => max left.height right.height + 1

/-- The leaves of a tree in order, by recursion. -/
def leaves : Tree → List Condition
  | .leaf c => [c]
  | .join _ left right => left.leaves ++ right.leaves

/-! ## Text -/

/-- The text of a part of a joined tree: in parentheses if it is itself joined. -/
def enclose (part : Tree) (text : String) : String :=
  if part.isLeaf then text else "(" ++ text ++ ")"

/-- The tree as a rule string. -/
def text : Tree → String
  | .leaf c => c.text
  | .join op left right =>
    enclose left left.text ++ " " ++ op.name ++ " " ++ enclose right right.text

end Tree

end Criteria

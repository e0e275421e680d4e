import Criteria.Limits
import Criteria.Tree.Basic
import Criteria.Tree.Error

/-!
# Joining trees

A list of trees is joined from the left, one connective between each two, and the
strength of the connectives does not count. The depth is checked before each join,
so that a tree which would become too deep is never built.

* `Tree.joinAll`: trees joined by a list of connectives;
* `Tree.joinUniformly`: trees joined by one connective.
-/

namespace Criteria

namespace Tree

/-- Joins further trees to a tree of a known depth. -/
def joinOnto (limit : Nat) (root : Tree) (depth : Nat) :
    List (Tree × Connective) → Except TreeError Tree
  | [] => .ok root
  | (tree, op) :: more =>
    -- The depth that the join would have.
    let joined := max depth tree.depth + 1
    if limit < joined then .error (.tooDeep joined limit)
    else joinOnto limit (.join op root tree) joined more

/-- Joins trees from the left, as long as the result is no deeper than `limit`. -/
def joinAll (limit : Nat) (trees : List Tree) (ops : List Connective) :
    Except TreeError Tree :=
  match trees with
  | [] => .error .noTrees
  | first :: rest =>
    if ops.length ≠ rest.length then .error (.operatorCount trees.length ops.length)
    else if limit < first.depth then .error (.tooDeep first.depth limit)
    else joinOnto limit first first.depth (rest.zip ops)

/-- Joins trees from the left by the same connective, up to the default depth. -/
def joinUniformly (trees : List Tree) (op : Connective) : Except TreeError Tree :=
  joinAll defaultTreeDepth trees (List.replicate (trees.length - 1) op)

end Tree

end Criteria

import Criteria.Tree.Basic

/-!
# Walking a tree with a stack

What is computed at the leaves of a tree and combined at its joins can be computed
on a stack of what is still to be done, so that a deep tree needs no deep call
stack.

* `Tree.fold`: the value of a tree by recursion;
* `Tree.walk?`: the same value with a stack of frames and a stack of results.
-/

namespace Criteria

namespace Tree

variable {α : Type}

/-- The value of a tree, by recursion: `leaf` at the leaves, `join` at the joins. -/
def fold (leaf : Condition → α) (join : Connective → α → α → α) : Tree → α
  | .leaf c => leaf c
  | .join op left right => join op (fold leaf join left) (fold leaf join right)

/-- What is still to be done in a walk. -/
inductive Frame
  | visit (tree : Tree)
  | combine (op : Connective)
  deriving DecidableEq

/-- How many steps a frame can cost. -/
def Frame.cost : Frame → Nat
  | visit tree => 2 * tree.size
  | combine _ => 1

/-- How many steps a list of frames can cost. -/
def Frame.totalCost : List Frame → Nat
  | [] => 0
  | frame :: frames => frame.cost + totalCost frames

/-- Works off the frames, of which the first comes next, over the results so far,
    of which the first is the latest. A join takes the latest two, the right part
    before the left; the walk fails where they are missing. -/
def walkOn (leaf : Condition → α) (join : Connective → α → α → α) (results : List α) :
    List Frame → Option α
  | [] => results.head?
  | .visit (.leaf c) :: frames => walkOn leaf join (leaf c :: results) frames
  | .visit (.join op left right) :: frames =>
    walkOn leaf join results (.visit left :: .visit right :: .combine op :: frames)
  | .combine op :: frames =>
    -- The right part was computed last.
    match results with
    | right :: left :: results => walkOn leaf join (join op left right :: results) frames
    | _ => none
termination_by frames => Frame.totalCost frames
decreasing_by all_goals simp [Frame.totalCost, Frame.cost, size]; try omega

/-- The value of a tree, by a walk. -/
def walk? (leaf : Condition → α) (join : Connective → α → α → α) (t : Tree) : Option α :=
  walkOn leaf join [] [.visit t]

end Tree

end Criteria

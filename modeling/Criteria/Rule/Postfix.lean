import Criteria.Condition.Reader
import Criteria.Limits
import Criteria.Token
import Criteria.Tree.Basic

/-!
# Postfix order

The tokens of a rule string are put into postfix order, in which every connective
follows the two rules that it joins. Connectives and open parentheses wait on a
stack: a connective leaves it when one comes that binds no tighter, or when the
parenthesis that holds it is closed.

* `Postfix.ofTokens`: the conditions and connectives of a rule in postfix order;
* `Postfix.toTree`: the tree that they build.
-/

namespace Criteria

namespace Postfix

/-- What postfix order consists of. -/
inductive Item
  | operand (condition : Condition)
  | connective (op : Connective)
  deriving DecidableEq

/-- What waits on the stack. -/
inductive Waiting
  | opening
  | connective (op : Connective)
  deriving DecidableEq

/-- Takes from the stack the connectives that bind at least as tightly as `op`. -/
def release (op : Connective) : List Waiting → List Item × List Waiting
  | .connective top :: stack =>
    if top.strength < op.strength then ([], .connective top :: stack)
    else
      let (items, stack) := release op stack
      (.connective top :: items, stack)
  | stack => ([], stack)

/-- Takes from the stack the connectives down to an open parenthesis, and the
    parenthesis. Fails if none is open. -/
def close? : List Waiting → Option (List Item × List Waiting)
  | [] => none
  | .opening :: stack => some ([], stack)
  | .connective op :: stack =>
    (close? stack).map fun (items, stack) => (.connective op :: items, stack)

/-- Takes everything from the stack. Fails if a parenthesis is open. -/
def drain : List Waiting → Except ReadError (List Item)
  | [] => .ok []
  | .opening :: _ => .error .unclosedOpening
  | .connective op :: stack => (.connective op :: ·) <$> drain stack

/-- Puts tokens into postfix order, from the token number `position` on, with
    `nesting` open parentheses among those that wait on the stack. -/
def arrange (limits : Limits) (position nesting : Nat) (stack : List Waiting) :
    List Token → Except ReadError (List Item)
  | [] => drain stack
  | .connective op :: tokens =>
    let (items, stack) := release op stack
    (items ++ ·) <$> arrange limits (position + 1) nesting (.connective op :: stack) tokens
  | .opening :: tokens =>
    if limits.nesting < nesting + 1 then .error (.nestingTooDeep (nesting + 1) limits.nesting)
    else arrange limits (position + 1) (nesting + 1) (.opening :: stack) tokens
  | .closing :: tokens =>
    match close? stack with
    | none => .error (.unmatchedClosing position)
    | some (items, stack) =>
      (items ++ ·) <$> arrange limits (position + 1) (nesting - 1) stack tokens
  | .condition text :: tokens =>
    match Condition.read text with
    | .error e => .error e
    | .ok condition =>
      (.operand condition :: ·) <$> arrange limits (position + 1) nesting stack tokens

/-- The conditions and connectives of a rule in postfix order. -/
def ofTokens (limits : Limits) (tokens : List Token) : Except ReadError (List Item) :=
  arrange limits 0 0 [] tokens

/-- Builds a tree from items in postfix order, on a stack of the trees that are
    not yet joined, each with its depth. -/
def build (limits : Limits) (built : List (Tree × Nat)) : List Item → Except ReadError Tree
  | [] =>
    match built with
    | [(tree, _)] => .ok tree
    | _ => .error (.leftover built.length)
  | .operand condition :: items => build limits ((.leaf condition, 1) :: built) items
  | .connective op :: items =>
    match built with
    | (right, rightDepth) :: (left, leftDepth) :: built =>
      -- A single condition is never too deep: only joins are checked.
      let depth := max leftDepth rightDepth + 1
      if limits.depth < depth then .error (.treeTooDeep depth limits.depth)
      else build limits ((.join op left right, depth) :: built) items
    | _ => .error (.missingOperand op)

/-- The tree that items in postfix order build. -/
def toTree (limits : Limits) (items : List Item) : Except ReadError Tree := build limits [] items

end Postfix

/-- The tree of a rule string. `AND` binds tighter than `OR`, and equal
    connectives join from the left. -/
def Tree.read (limits : Limits) (s : String) : Except ReadError Tree :=
  match Postfix.ofTokens limits (Token.split s) with
  | .error e => .error e
  | .ok items => Postfix.toTree limits items

end Criteria

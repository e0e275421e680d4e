import Criteria.Record
import Criteria.Tree.Walk

/-!
# Evaluation

A rule passes or fails on a record, with a message. A condition on a field that
the record lacks fails. A join evaluates both of its parts, and then decides:

* `AND` gives the outcome of the first part that fails, word for word;
* `OR` only says whether a part passed.

Definitions:

* `Tree.evaluate`: the outcome, by a walk with a stack;
* `Tree.outcome`: the outcome, by recursion.
-/

namespace Criteria

/-- What an evaluation comes to. -/
structure Outcome where
  success : Bool
  message : String
  deriving DecidableEq

namespace Outcome

/-- The outcome where there is no rule to evaluate. -/
def unknown : Outcome := ⟨false, "Unknown error occurred during rule evaluation"⟩

/-- The outcome of a join from the outcomes of its parts. -/
def join : Connective → Outcome → Outcome → Outcome
  | .and, left, right =>
    if !left.success then left
    else if !right.success then right
    else ⟨true, "Both conditions passed for AND"⟩
  | .or, left, right =>
    if left.success || right.success then ⟨true, "One condition passed for OR"⟩
    else ⟨false, "Both conditions failed for OR"⟩

end Outcome

namespace Comparator

/-- Whether two numbers compare as said. -/
def holdsOfNumbers : Comparator → Number → Number → Bool
  | .greater, x, y => y.less x
  | .less, x, y => x.less y
  | .equal, x, y => x == y

/-- Whether two texts compare as said. Texts are ordered by their characters'
    code points. -/
def holdsOfTexts : Comparator → String → String → Bool
  | .greater, s, t => t < s
  | .less, s, t => s < t
  | .equal, s, t => s == t

/-- Whether a field compares with a literal as said. A number and a text are
    ordered as numbers, and never equal. -/
def holds (comparator : Comparator) : Value → Value → Bool
  | .number x, .number y => comparator.holdsOfNumbers x y
  | .text s, .text t => comparator.holdsOfTexts s t
  | v, w =>
    match comparator with
    | .equal => false
    | comparator => comparator.holdsOfNumbers v.toNumber w.toNumber

end Comparator

namespace Condition

/-- Whether a record meets a condition. -/
def holds (c : Condition) (record : Record) : Bool :=
  match record.get? c.field with
  | none => false
  | some value => c.comparator.holds value c.value

/-- The outcome of a condition. -/
def outcome (c : Condition) (record : Record) : Outcome :=
  let met := c.holds record
  let verdict := if met then "passed" else "failed"
  ⟨met, "Condition " ++ verdict ++ ": " ++ c.field ++ " " ++ c.comparator.symbol ++ " " ++
    c.value.display⟩

end Condition

namespace Tree

/-- The outcome of a rule, by recursion. -/
def outcome (record : Record) : Tree → Outcome := fold (·.outcome record) Outcome.join

/-- The outcome of a rule, by a walk. -/
def evaluate (t : Tree) (record : Record) : Outcome :=
  (t.walk? (·.outcome record) Outcome.join).getD .unknown

end Tree

end Criteria

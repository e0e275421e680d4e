import Criteria.Comparator
import Criteria.Value

/-!
# Conditions

A condition compares one field of a record with a literal.

* `Condition.text`: the condition as it is written in a rule.
-/

namespace Criteria

/-- One comparison: a field of the record, given by its name, against a value. -/
structure Condition where
  field : String
  comparator : Comparator
  value : Value
  deriving DecidableEq

namespace Condition

/-- Equal in field and comparator, and in value as values are. -/
def equal (c d : Condition) : Bool :=
  c.field == d.field && c.comparator == d.comparator && c.value == d.value

instance : BEq Condition := ⟨equal⟩

/-- A literal in a rule: a text stands in single quotes, or in double quotes if
    it holds a single one; a number stands bare. -/
def literal : Value → String
  | .number x => x.text
  | .text s => if s.toList.contains '\'' then "\"" ++ s ++ "\"" else "'" ++ s ++ "'"

/-- The condition in a rule. -/
def text (c : Condition) : String :=
  c.field ++ " " ++ c.comparator.symbol ++ " " ++ literal c.value

end Condition

end Criteria

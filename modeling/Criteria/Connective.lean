/-!
# Connectives

The two ways of joining conditions, written `AND` and `OR`. `AND` binds tighter.
-/

namespace Criteria

/-- How two rules are joined. -/
inductive Connective
  | and
  | or
  deriving DecidableEq

namespace Connective

/-- The connective in rules and messages. -/
def name : Connective → String
  | .and => "AND"
  | .or => "OR"

/-- The connective with a name; letter case counts. -/
def ofName? : String → Option Connective
  | "AND" => some .and
  | "OR" => some .or
  | _ => none

/-- How tightly a connective binds. -/
def strength : Connective → Nat
  | .and => 2
  | .or => 1

theorem ofName?_name (op : Connective) : ofName? op.name = some op := by
  cases op <;> rfl

end Connective

end Criteria

import Criteria.Store.Error
import Criteria.StoredRule
import Criteria.Table

/-!
# Rules in memory

A store that keeps rules under their ids, which may be any string.
-/

namespace Criteria

/-- The rules of a store in memory. -/
abbrev Memory := Table StoredRule

namespace Memory

/-- Stores a rule in place of any with its id. -/
def save (m : Memory) (rule : StoredRule) : Memory := m.insert rule.id rule

/-- The rule with an id. -/
def load (m : Memory) (id : String) : Except StoreError StoredRule :=
  match m.get? id with
  | some rule => .ok rule
  | none => .error (.notFound id)

/-- Removes the rule with an id. -/
def delete (m : Memory) (id : String) : Except StoreError Memory :=
  if m.contains id then .ok (m.erase id) else .error (.notFound id)

/-- All rules, in order of creation. -/
def list (m : Memory) : List StoredRule := StoredRule.inOrder (m.entries.map (·.2))

/-- The number of rules. -/
def size (m : Memory) : Nat := m.entries.length

end Memory

end Criteria

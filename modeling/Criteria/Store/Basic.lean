import Criteria.Store.Directory
import Criteria.Store.Memory

/-!
# Stores

Rules are kept in memory or in a directory. Both kinds of store do the same things,
and a store is a value: what changes it gives the store as it is afterwards.
-/

namespace Criteria

/-- Where rules are kept. -/
inductive Store
  | memory (m : Memory)
  | directory (d : Directory)

namespace Store

/-- Stores a rule in place of any with its id. -/
def save : Store → StoredRule → Except StoreError Unit × Store
  | .memory m, rule => (.ok (), .memory (m.save rule))
  | .directory d, rule =>
    let (answer, d) := d.save rule
    (answer, .directory d)

/-- The rule with an id. -/
def load : Store → String → Except StoreError StoredRule
  | .memory m, id => m.load id
  | .directory d, id => d.load id

/-- Removes the rule with an id. -/
def delete : Store → String → Except StoreError Unit × Store
  | .memory m, id =>
    match m.delete id with
    | .ok m => (.ok (), .memory m)
    | .error e => (.error e, .memory m)
  | .directory d, id =>
    match d.delete id with
    | .ok d => (.ok (), .directory d)
    | .error e => (.error e, .directory d)

/-- All rules, in order of creation. -/
def list : Store → Except StoreError (List StoredRule)
  | .memory m => .ok m.list
  | .directory d => d.list

/-- Whether there is a rule with an id. -/
def holds (store : Store) (id : String) : Except StoreError Bool :=
  match store.load id with
  | .ok _ => .ok true
  | .error (.notFound _) => .ok false
  | .error e => .error e

end Store

end Criteria

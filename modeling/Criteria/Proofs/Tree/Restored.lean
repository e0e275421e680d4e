import Criteria.Proofs.Json.Restored
import Criteria.Proofs.Tree.Depth
import Criteria.Proofs.Tree.Edit

/-!
# Trees restored from their documents

What is read of the document of a tree has the same shape, connectives, fields, comparators and
texts. Only its numbers may be others: each is what is read of the text of the number.

* `Tree.mapValues`: a tree with each value changed;
* `Tree.mapValues_setRoot`, `Tree.mapValues_assign`: it makes no difference whether an edit
  comes before or after that;
* `Value.restored`, `Condition.restored`, `Tree.restored`: what is read of a document;
* `Value.restored_eq_self`: the values that are read as they were written, at least.
-/

namespace Criteria

/-! ## Other values -/

/-- The condition with its value changed. -/
def Condition.mapValue (f : Value → Value) (c : Condition) : Condition :=
  { c with value := f c.value }

theorem Condition.mapValue_assign (f : Value → Value) (field : String) (value : Value)
    (c : Condition) : (c.assign field value).mapValue f = (c.mapValue f).assign field (f value) := by
  rw [assign, assign]
  change _ = if c.field = field then _ else _
  split <;> rfl

namespace Tree

variable {f : Value → Value} {t : Tree}

/-- The tree with each value changed. -/
def mapValues (f : Value → Value) (t : Tree) : Tree := t.mapLeaves (Condition.mapValue f)

theorem mapValues_eq_self (h : ∀ c ∈ t.leaves, f c.value = c.value) : t.mapValues f = t :=
  mapLeaves_eq_self fun c hc => by rw [Condition.mapValue, h c hc]

theorem height_mapValues (f : Value → Value) (t : Tree) : (t.mapValues f).height = t.height :=
  height_mapLeaves _ t

theorem depth_mapValues (f : Value → Value) (t : Tree) : (t.mapValues f).depth = t.depth := by
  rw [depth_eq_height, depth_eq_height, height_mapValues]

/-- The values of the tree are those of the old one, changed. -/
theorem forall_leaves_mapValues {P : Condition → Prop} :
    (∀ c ∈ (t.mapValues f).leaves, P c) ↔ ∀ c ∈ t.leaves, P (c.mapValue f) := by
  rw [mapValues, leaves_mapLeaves, List.forall_mem_map]

theorem mapValues_setRoot (f : Value → Value) (op : Connective) (t : Tree) :
    (t.setRoot op).mapValues f = (t.mapValues f).setRoot op := by
  cases t <;> rfl

theorem mapValues_assign (f : Value → Value) (field : String) (value : Value) (t : Tree) :
    (t.assign field value).mapValues f = (t.mapValues f).assign field (f value) := by
  simp only [mapValues, assign_eq_mapLeaves, mapLeaves_mapLeaves, Condition.mapValue_assign]

end Tree

/-! ## What is read -/

/-- The value that is read of the JSON of a value. -/
def Value.restored : Value → Value
  | .number x => .number x.restored
  | .text s => .text s

theorem Value.isFinite_restored {v : Value} (h : v.isFinite) : v.restored.isFinite := by
  cases v with
  | number x => exact Number.isFinite_restored h
  | text s => rfl

/-- Texts and whole numbers of at most fifteen digits. -/
inductive Value.IsShort : Value → Prop
  | number {i : Int} (h : i.natAbs < 10 ^ 15) : IsShort (.number (.ofInt i))
  | text (s : String) : IsShort (.text s)

/-- A short value is restored as it is. -/
theorem Value.restored_eq_self {v : Value} (h : v.IsShort) : v.restored = v := by
  cases h with
  | number h => exact congrArg Value.number (Number.restored_ofInt h)
  | text s => rfl

/-- The condition that is read of the JSON of a condition. -/
def Condition.restored (c : Condition) : Condition := c.mapValue Value.restored

/-- The tree that is read of the document of a tree. -/
def Tree.restored (t : Tree) : Tree := t.mapValues Value.restored

theorem Tree.height_restored (t : Tree) : t.restored.height = t.height :=
  t.height_mapValues Value.restored

/-- A tree all of whose values are short. -/
def Tree.HasShortValues (t : Tree) : Prop := ∀ c ∈ t.leaves, c.value.IsShort

end Criteria

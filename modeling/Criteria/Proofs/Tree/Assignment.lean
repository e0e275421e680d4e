import Criteria.Proofs.Tree.Depth
import Criteria.Proofs.Tree.Equality
import Criteria.Proofs.Tree.Places
import Criteria.Proofs.Tree.Related

/-!
# Values put into a rule

A value for a field is put into all conditions on it, and nothing else in the rule changes. So
of several values for one field the last one counts, values for two fields and a connective for
the root can be put in in any order, and a field that the rule does not ask for has no effect.

* `Condition.Assigned`: what becomes of a condition;
* `Tree.rel_assigned_iff`: what becomes of a tree;
* `Tree.assign_iff_assigned`: these laws together.
-/

namespace Criteria

namespace Condition

variable {field : String} {value : Value} {c d : Condition}

/-- The second condition is the first one, with the value in place of its own if it is on the
    field. -/
structure Assigned (field : String) (value : Value) (c d : Condition) : Prop where
  field_eq : d.field = c.field
  comparator_eq : d.comparator = c.comparator
  value_eq : d.value = if c.field = field then value else c.value

theorem assigned_iff : Assigned field value c d ↔ d = c.assign field value := by
  obtain ⟨dField, dComparator, dValue⟩ := d
  rw [assign]
  constructor
  · rintro ⟨hfield, hcomparator, hvalue⟩
    split <;> simp_all
  · intro h
    split at h <;> cases h <;> exact ⟨rfl, rfl, by simp [*]⟩

theorem comparator_assign (field : String) (value : Value) (c : Condition) :
    (c.assign field value).comparator = c.comparator := by
  rw [assign]
  split <;> rfl

end Condition

namespace Tree

variable {field other : String} {value new : Value} {t u : Tree}

/-- Every condition on the field gets the value, and all else stays as it is. -/
theorem rel_assigned_iff :
    Rel Eq (Condition.Assigned field value) t u ↔ u = t.assign field value := by
  have hassigned : Condition.Assigned field value = fun c d => d = c.assign field value :=
    funext₂ fun _ _ => propext Condition.assigned_iff
  rw [hassigned, rel_eq_iff, assign_eq_mapLeaves]

/-- A field that the tree does not ask for has no effect. -/
theorem assign_eq_self (h : ∀ c ∈ t.leaves, c.field ≠ field) : t.assign field value = t := by
  rw [assign_eq_mapLeaves]
  exact mapLeaves_eq_self fun c hc => if_neg (h c hc)

theorem assign_setRoot (op : Connective) (t : Tree) :
    (t.setRoot op).assign field value = (t.assign field value).setRoot op := by
  rw [assign_eq_mapLeaves, assign_eq_mapLeaves]
  cases t <;> rfl

/-- A value put into a tree changes neither fields nor comparators. -/
theorem map_leaves_assign (t : Tree) :
    (t.assign field value).leaves.map (fun c => (c.field, c.comparator)) =
      t.leaves.map fun c => (c.field, c.comparator) := by
  rw [assign_eq_mapLeaves, leaves_mapLeaves, List.map_map]
  refine List.map_congr_left fun c _ => ?_
  rw [Function.comp_apply, Condition.field_assign, Condition.comparator_assign]

/-- A value for a field is put into exactly the conditions on it, and in place this takes as
    many visits as the tree has nodes. If there are no such conditions, the tree stays as it is.
    Of two values for one field the second counts; values for two fields can change places, and
    so can a value and a connective for the root. Depth, fields and comparators stay as they
    are. -/
theorem assign_iff_assigned (field : String) (value : Value) (t : Tree) :
    (∀ u, Rel Eq (Condition.Assigned field value) t u ↔ u = t.assign field value) ∧
    (∀ n u, Edits (Condition.assign field value) n t [[]] u ↔
      n = t.size ∧ u = t.assign field value) ∧
    ((∀ c ∈ t.conditions, c.field ≠ field) → t.assign field value = t) ∧
    (∀ new, (t.assign field value).assign field new = t.assign field new) ∧
    (∀ other new, field ≠ other →
      (t.assign field value).assign other new = (t.assign other new).assign field value) ∧
    (∀ op, (t.setRoot op).assign field value = (t.assign field value).setRoot op) ∧
    (t.assign field value).depth = t.depth ∧
    (t.assign field value).conditions.map (fun c => (c.field, c.comparator)) =
      t.conditions.map fun c => (c.field, c.comparator) := by
  simp only [conditions_eq_leaves, depth_eq_height]
  refine ⟨fun u => rel_assigned_iff, fun n u => ?_, assign_eq_self, fun new => assign_assign t,
    fun other new h => assign_comm h t, fun op => assign_setRoot op t, ?_, map_leaves_assign t⟩
  · rw [edits_iff, assign_eq_mapLeaves]
  · rw [assign_eq_mapLeaves, height_mapLeaves]

/-- The first field occurs twice, the second one once, and the third one not at all. -/
theorem assign_iff_assigned_three :
    let t := join .or (.join .and (.leaf ⟨"a", .greater, .number (.ofInt 1)⟩)
      (.leaf ⟨"b", .equal, .text "x"⟩)) (.leaf ⟨"a", .less, .text "1"⟩)
    let value := Value.number .nan
    t.assign "c" value = t ∧
      (t.assign "a" value).assign "b" (.text "a") = (t.assign "b" (.text "a")).assign "a" value := by
  intro t value
  obtain ⟨-, -, habsent, -, -⟩ := assign_iff_assigned "c" value t
  obtain ⟨-, -, -, -, hcomm, -⟩ := assign_iff_assigned "a" value t
  exact ⟨habsent (by decide +kernel), hcomm "b" (.text "a") (by decide)⟩

end Tree

end Criteria

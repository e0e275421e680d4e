import Criteria.Evaluation
import Criteria.Proofs.Tree.Walk

/-!
# The rules of evaluation

Evaluation follows one rule at a leaf, three at `AND` and two at `OR`. The rules give every
tree exactly one outcome on a record, and this is what the walk with a stack computes; it
never lacks a result.

* `Tree.Gives`: the rules;
* `Tree.evaluate_eq_outcome`: the outcome by recursion;
* `Tree.evaluate_congr`: the outcome depends on which conditions are met;
* `Tree.gives_iff_evaluate`: the outcome by the rules.
-/

namespace Criteria

/-- Only the value of its field counts for a condition. -/
theorem Condition.holds_congr {c : Condition} {record record' : Record}
    (h : record.get? c.field = record'.get? c.field) : c.holds record = c.holds record' := by
  rw [holds, holds, h]

namespace Tree

variable {record : Record} {t left right : Tree} {o p : Outcome}

/-- The outcome that a tree gives on a record. Both parts of a join are evaluated, also
    where one of them decides. -/
inductive Gives (record : Record) : Tree → Outcome → Prop
  | leaf (c : Condition) : Gives record (.leaf c) (c.outcome record)
  | andLeft {left right : Tree} {o p : Outcome} : Gives record left o → Gives record right p →
    ¬o.success → Gives record (.join .and left right) o
  | andRight {left right : Tree} {o p : Outcome} : Gives record left o → Gives record right p →
    o.success → ¬p.success → Gives record (.join .and left right) p
  | andBoth {left right : Tree} {o p : Outcome} : Gives record left o → Gives record right p →
    o.success → p.success →
      Gives record (.join .and left right) ⟨true, "Both conditions passed for AND"⟩
  | orEither {left right : Tree} {o p : Outcome} : Gives record left o → Gives record right p →
    o.success ∨ p.success →
      Gives record (.join .or left right) ⟨true, "One condition passed for OR"⟩
  | orNeither {left right : Tree} {o p : Outcome} : Gives record left o → Gives record right p →
    ¬o.success → ¬p.success →
      Gives record (.join .or left right) ⟨false, "Both conditions failed for OR"⟩

/-- A join of parts with outcomes gives the outcome that its connective makes of them. -/
theorem Gives.join (op : Connective) (hleft : Gives record left o) (hright : Gives record right p) :
    Gives record (.join op left right) (Outcome.join op o p) := by
  cases op with
  | and =>
    by_cases ho : o.success
    · by_cases hp : p.success
      · simpa [Outcome.join, ho, hp] using Gives.andBoth hleft hright ho hp
      · simpa [Outcome.join, ho, hp] using Gives.andRight hleft hright ho hp
    · simpa [Outcome.join, ho] using Gives.andLeft hleft hright ho
  | or =>
    by_cases h : o.success ∨ p.success
    · simpa [Outcome.join, h] using Gives.orEither hleft hright h
    · obtain ⟨ho, hp⟩ := not_or.1 h
      simpa [Outcome.join, ho, hp] using Gives.orNeither hleft hright ho hp

/-- Every tree gives its outcome by recursion. -/
theorem gives_outcome (record : Record) (t : Tree) : Gives record t (t.outcome record) := by
  induction t with
  | leaf c => exact .leaf c
  | join op left right ih₁ ih₂ => exact ih₁.join op ih₂

theorem outcome_join (record : Record) (op : Connective) (left right : Tree) :
    (join op left right).outcome record =
      Outcome.join op (left.outcome record) (right.outcome record) := rfl

/-- A tree gives no other outcome. -/
theorem Gives.eq_outcome (h : Gives record t o) : o = t.outcome record := by
  induction h with
  | leaf c => rfl
  | andLeft _ _ ho ih₁ ih₂ =>
    rw [outcome_join, ← ih₁, ← ih₂]
    simp [Outcome.join, ho]
  | andRight _ _ ho hp ih₁ ih₂ | andBoth _ _ ho hp ih₁ ih₂ | orNeither _ _ ho hp ih₁ ih₂ =>
    rw [outcome_join, ← ih₁, ← ih₂]
    simp [Outcome.join, ho, hp]
  | orEither _ _ h ih₁ ih₂ =>
    rw [outcome_join, ← ih₁, ← ih₂]
    simp [Outcome.join, h]

/-- The walk computes the outcome by recursion. -/
theorem evaluate_eq_outcome (t : Tree) (record : Record) :
    t.evaluate record = t.outcome record := by
  rw [evaluate, walk?_eq_fold, Option.getD_some, outcome]

/-- Only whether its conditions are met counts for a tree. -/
theorem outcome_congr {record' : Record} (h : ∀ c ∈ t.leaves, c.holds record = c.holds record') :
    t.outcome record = t.outcome record' := by
  induction t with
  | leaf c =>
    change c.outcome record = c.outcome record'
    rw [Condition.outcome, Condition.outcome, h c (List.mem_singleton.2 rfl)]
  | join op left right ih₁ ih₂ =>
    rw [outcome_join, outcome_join, ih₁ fun c hc => h c (List.mem_append_left _ hc),
      ih₂ fun c hc => h c (List.mem_append_right _ hc)]

theorem evaluate_congr {record' : Record} (h : ∀ c ∈ t.leaves, c.holds record = c.holds record') :
    t.evaluate record = t.evaluate record' := by
  rw [evaluate_eq_outcome, evaluate_eq_outcome, outcome_congr h]

/-- The walk over a tree always comes to an outcome, which is the one that the tree gives by
    the rules of evaluation. -/
theorem gives_iff_evaluate (record : Record) (t : Tree) :
    t.walk? (·.outcome record) Outcome.join = some (t.evaluate record) ∧
      ∀ o, Gives record t o ↔ o = t.evaluate record := by
  rw [evaluate_eq_outcome]
  refine ⟨walk?_eq_fold t, fun o => ⟨Gives.eq_outcome, ?_⟩⟩
  rintro rfl
  exact gives_outcome record t

end Tree

end Criteria

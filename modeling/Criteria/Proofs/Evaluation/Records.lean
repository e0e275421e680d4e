import Criteria.Proofs.Evaluation.Blame
import Criteria.Proofs.Tree.Depth
import Criteria.Proofs.Tree.Equality
import Criteria.Proofs.Tree.Related

/-!
# Rules on two records

A rule asks a record for the fields in its conditions, and only for whether it meets them: two
records that meet the same conditions get the same outcome, message and all. A rule that passes
still passes where more of its conditions are met and where `OR` stands in place of `AND`, and
it passes only if it finds one of its fields in the record.

* `Tree.success_of_rel`: rules of one shape on two records;
* `Tree.success_setRoot_or`, `Tree.success_of_extends`: a weaker root, and more fields;
* `Tree.success_of_relaxed`: what keeps a rule passing, and what it takes to pass;
* `Tree.evaluate_of_agree`: what an outcome depends on.
-/

namespace Criteria

/-! ## Connectives -/

namespace Connective

variable {op op' : Connective} {p p' q q' : Bool}

/-- The second connective is the first one, or `OR` in place of `AND`. -/
inductive Relaxed : Connective → Connective → Prop
  | same (op : Connective) : Relaxed op op
  | orForAnd : Relaxed .and .or

/-- A connective that passes still does where it is relaxed and where more passes. -/
theorem Relaxed.holds (h : Relaxed op op') (hp : p → p') (hq : q → q') (hpq : op.holds p q) :
    op'.holds p' q' := by
  cases h with
  | same op =>
    cases op with
    | and =>
      obtain ⟨h₁, h₂⟩ := Bool.and_eq_true_iff.1 hpq
      exact Bool.and_eq_true_iff.2 ⟨hp h₁, hq h₂⟩
    | or => exact Bool.or_eq_true_iff.2 ((Bool.or_eq_true_iff.1 hpq).imp hp hq)
  | orForAnd => exact Bool.or_eq_true_iff.2 (.inl (hp (Bool.and_eq_true_iff.1 hpq).1))

/-- No connective passes where neither side does. -/
theorem or_of_holds (h : op.holds p q) : p ∨ q := by
  cases op with
  | and => exact .inl (Bool.and_eq_true_iff.1 h).1
  | or => exact Bool.or_eq_true_iff.1 h

end Connective

/-! ## Conditions -/

namespace Comparator

variable {x x' y : Number} {v v' w : Value} (comparator : Comparator)

/-- Numbers compare by their places. -/
theorem holdsOfNumbers_congr (h : x.place? = x'.place?) :
    comparator.holdsOfNumbers x y = comparator.holdsOfNumbers x' y := by
  cases comparator with
  | greater | less => simp only [holdsOfNumbers, Number.less, h]
  | equal =>
    change Number.equal x y = Number.equal x' y
    rw [Number.equal, Number.equal, h]

/-- Values that are equal compare alike. -/
theorem holds_congr (h : (v == v') = true) : comparator.holds v w = comparator.holds v' w := by
  rcases Value.beq_iff.1 h with ⟨x, x', rfl, rfl, hx⟩ | ⟨s, rfl, rfl⟩
  · obtain ⟨place, hplace, hplace'⟩ := Number.beq_iff.1 hx
    have hcongr (comparator : Comparator) (y : Number) :
        comparator.holdsOfNumbers x y = comparator.holdsOfNumbers x' y :=
      comparator.holdsOfNumbers_congr (hplace.trans hplace'.symm)
    cases w with
    | number y => exact hcongr comparator y
    | text s =>
      cases comparator with
      | greater => exact hcongr .greater (Value.text s).toNumber
      | less => exact hcongr .less (Value.text s).toNumber
      | equal => rfl
  · rfl

end Comparator

/-- Both records lack the field, or have the same value there, or values that are equal. -/
def Record.Agree (record record' : Record) (field : String) : Prop :=
  record.get? field = record'.get? field ∨ (record.get? field == record'.get? field) = true

namespace Condition

variable {c : Condition} {record record' : Record}

theorem holds_of_agree (h : record.Agree record' c.field) :
    c.holds record = c.holds record' := by
  rcases h with h | h
  · exact holds_congr h
  · rw [holds, holds]
    cases hv : record.get? c.field with
    | none =>
      cases hv' : record'.get? c.field with
      | none => rfl
      | some v' => simp [hv, hv'] at h
    | some v =>
      cases hv' : record'.get? c.field with
      | none => simp [hv, hv'] at h
      | some v' =>
        rw [hv, hv', Option.some_beq_some] at h
        exact c.comparator.holds_congr h

/-- A condition on a field that the record lacks is not met. -/
theorem not_holds_of_get? (h : record.get? c.field = none) : ¬c.holds record := by
  rw [holds, h]
  exact Bool.false_ne_true

end Condition

namespace Tree

variable {record record' : Record} {t u : Tree}

/-! ## Passing -/

/-- A rule that passes still does where its connectives are relaxed and more conditions are met. -/
theorem success_of_rel
    (h : Rel Connective.Relaxed (fun c d => c.holds record → d.holds record') t u)
    (ht : (t.evaluate record).success) : (u.evaluate record').success := by
  induction h with
  | leaf hcd =>
    rw [evaluate_leaf] at ht ⊢
    exact hcd ht
  | join hop _ _ ih₁ ih₂ =>
    rw [evaluate_join, Outcome.success_join] at ht ⊢
    exact hop.holds ih₁ ih₂ ht

/-- `OR` at the root never makes a rule fail. -/
theorem success_setRoot_or (h : (t.evaluate record).success) :
    ((t.setRoot .or).evaluate record).success := by
  refine success_of_rel (rel_setRoot (fun op => ?_) .same fun _ _ => id) h
  cases op with
  | and => exact .orForAnd
  | or => exact .same .or

/-- Fields that a record has besides never make a rule fail. -/
theorem success_of_extends
    (hmore : ∀ name v, record.get? name = some v → record'.get? name = some v)
    (h : (t.evaluate record).success) : (t.evaluate record').success := by
  refine success_of_rel (rel_refl .same fun c _ hc => ?_) h
  rw [Condition.holds] at hc
  split at hc
  · exact absurd hc Bool.false_ne_true
  · rename_i v hv
    rwa [Condition.holds, hmore c.field v hv]

/-- A rule that passes has a condition that is met. -/
theorem exists_holds_of_success (h : (t.evaluate record).success) :
    ∃ c ∈ t.leaves, c.holds record := by
  induction t with
  | leaf c =>
    rw [evaluate_leaf] at h
    exact ⟨c, List.mem_singleton.2 rfl, h⟩
  | join op left right ih₁ ih₂ =>
    rw [evaluate_join, Outcome.success_join] at h
    rcases Connective.or_of_holds h with hleft | hright
    · obtain ⟨c, hc, hholds⟩ := ih₁ hleft
      exact ⟨c, List.mem_append_left _ hc, hholds⟩
    · obtain ⟨c, hc, hholds⟩ := ih₂ hright
      exact ⟨c, List.mem_append_right _ hc, hholds⟩

/-- Of two rules of one shape, the second passes on a record wherever the first passes on
    another, if each condition of the first that is met there has one in its place that is met,
    and the connectives are the same but for `OR` in place of `AND`. And no rule passes on a
    record that lacks all the fields of its conditions. -/
theorem success_of_relaxed (record record' : Record) (t : Tree) :
    (∀ u, Rel Connective.Relaxed (fun c d => c.holds record → d.holds record') t u →
      (t.evaluate record).success → (u.evaluate record').success) ∧
    ((∀ c ∈ t.conditions, record.get? c.field = none) → ¬(t.evaluate record).success) := by
  refine ⟨fun u => success_of_rel, fun hnone hsuccess => ?_⟩
  rw [conditions_eq_leaves] at hnone
  obtain ⟨c, hc, hholds⟩ := exists_holds_of_success hsuccess
  exact Condition.not_holds_of_get? (hnone c hc) hholds

/-- The parts of an `AND` pass on one record and those of the `OR` in its place on another,
    while the third condition is met on neither. -/
theorem success_of_relaxed_three :
    let c (field : String) : Tree := .leaf ⟨field, .greater, .number (.ofInt 1)⟩
    let t := join .or (.join .and (c "a") (c "b")) (c "c")
    let u := join .or (.join .or (.leaf ⟨"a", .less, .text "5"⟩) (.leaf ⟨"b", .equal, .text "x"⟩))
      (c "c")
    let record := Table.ofList [("a", Value.number (.ofInt 2)), ("b", .text "3")]
    let record' := Table.ofList [("a", Value.number (.ofInt 4)), ("b", .text "x")]
    (t.evaluate record).success ∧ (u.evaluate record').success ∧
      ¬(t.evaluate .empty).success := by
  intro c t u record record'
  have hrel : Rel Connective.Relaxed (fun c d => c.holds record → d.holds record') t u :=
    .join (.same .or) (.join .orForAnd (.leaf (by decide +kernel)) (.leaf (by decide +kernel)))
      (.leaf (by decide +kernel))
  have hpasses : (t.evaluate record).success := by decide +kernel
  exact ⟨hpasses, (success_of_relaxed record record' t).1 u hrel hpasses,
    (success_of_relaxed .empty .empty t).2 fun _ _ => Table.get?_empty _⟩

/-! ## What an outcome depends on -/

/-- An outcome depends only on the fields that the conditions of the rule name: it is the same
    on two records that agree on all of these. Of their values it depends only on which
    conditions are met: it is the same on any two records that meet the same ones. -/
theorem evaluate_of_agree (record record' : Record) (t : Tree) :
    ((∀ c ∈ t.conditions, record.Agree record' c.field) →
      t.evaluate record = t.evaluate record') ∧
    ((∀ c ∈ t.conditions, c.holds record = c.holds record') →
      t.evaluate record = t.evaluate record') := by
  rw [conditions_eq_leaves]
  exact ⟨fun h => evaluate_congr fun c hc => Condition.holds_of_agree (h c hc), evaluate_congr⟩

/-- The records agree with zeros of either sign and a field that no condition names, and a third
    one has other values that meet the same conditions. -/
theorem evaluate_of_agree_zeros :
    let t := join .and (.leaf ⟨"a", .less, .number (.ofInt 1)⟩)
      (.join .or (.leaf ⟨"b", .equal, .text "x"⟩) (.leaf ⟨"c", .greater, .text "1"⟩))
    let record := Table.ofList [("a", Value.number (.zero false)), ("d", .text "y")]
    let agreeing := Table.ofList [("a", Value.number (.zero true))]
    let other := Table.ofList [("a", Value.number (.ofInt (-3))), ("b", .text "y"), ("c", .text "1")]
    (∀ c ∈ t.conditions, Record.Agree record agreeing c.field) ∧
      t.evaluate record = t.evaluate agreeing ∧
      (∀ c ∈ t.conditions, c.holds record = c.holds other) ∧
      t.evaluate record = t.evaluate other := by
  intro t record agreeing other
  have hconditions : t.conditions = [⟨"a", .less, .number (.ofInt 1)⟩, ⟨"b", .equal, .text "x"⟩,
      ⟨"c", .greater, .text "1"⟩] := by decide +kernel
  have hagree : ∀ c ∈ t.conditions, Record.Agree record agreeing c.field := by
    rw [hconditions]
    simp only [List.forall_mem_cons]
    exact ⟨.inr (by decide +kernel), .inl (by decide +kernel), .inl (by decide +kernel), nofun⟩
  have hmet : ∀ c ∈ t.conditions, c.holds record = c.holds other := by
    rw [hconditions]
    decide +kernel
  exact ⟨hagree, (evaluate_of_agree record agreeing t).1 hagree, hmet,
    (evaluate_of_agree record other t).2 hmet⟩

end Tree

end Criteria

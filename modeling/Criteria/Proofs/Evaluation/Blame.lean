import Criteria.Proofs.Evaluation

/-!
# Blame for a failure

What the `AND` connectives at the root of a rule join, however they are grouped, are the
conjuncts of the rule: conditions, and joins by `OR`. A rule fails just if one of them does,
with the outcome of the first one that fails; if it passes, its root alone decides on the
message. So the grouping of parts that are joined by one connective does not count, at the
root and anywhere below it.

* `Tree.conjuncts`: the conjuncts of a rule;
* `Tree.Regroups`: another grouping at one place of a rule;
* `Tree.evaluate_of_conjuncts`: the outcome of a rule from its conjuncts, in any grouping.
-/

namespace Criteria

/-- What a connective makes of whether two rules pass. -/
def Connective.holds : Connective → Bool → Bool → Bool
  | .and, left, right => left && right
  | .or, left, right => left || right

namespace Outcome

variable {o p : Outcome}

theorem success_join (op : Connective) (o p : Outcome) :
    (join op o p).success = op.holds o.success p.success := by
  cases op <;> cases ho : o.success <;> cases hp : p.success <;>
    simp [join, Connective.holds, ho, hp]

/-- Three outcomes can be joined in either grouping. -/
theorem join_assoc (op : Connective) (o p q : Outcome) :
    join op (join op o p) q = join op o (join op p q) := by
  cases op <;> cases ho : o.success <;> cases hp : p.success <;> cases hq : q.success <;>
    simp [join, ho, hp, hq]

/-- All joins by `AND` that pass have one message. -/
theorem join_and_of_success (h : (join .and o p).success) :
    join .and o p = ⟨true, "Both conditions passed for AND"⟩ := by
  obtain ⟨ho, hp⟩ : o.success = true ∧ p.success = true := by
    rwa [success_join, Connective.holds, Bool.and_eq_true] at h
  simp [join, ho, hp]

/-- A join by `OR` says only whether it passes. -/
theorem join_or (o p : Outcome) :
    join .or o p =
      if (join .or o p).success then ⟨true, "One condition passed for OR"⟩
      else ⟨false, "Both conditions failed for OR"⟩ := by
  rw [success_join]
  rfl

end Outcome

namespace Tree

variable {record : Record} {t u left right : Tree}

theorem evaluate_join (record : Record) (op : Connective) (left right : Tree) :
    (join op left right).evaluate record =
      Outcome.join op (left.evaluate record) (right.evaluate record) := by
  rw [evaluate_eq_outcome, evaluate_eq_outcome, evaluate_eq_outcome, outcome_join]

theorem evaluate_leaf (record : Record) (c : Condition) :
    (leaf c).evaluate record = c.outcome record := evaluate_eq_outcome _ _

/-! ## Conjuncts -/

/-- The conjuncts of a rule, from left to right. -/
def conjuncts : Tree → List Tree
  | .join .and left right => left.conjuncts ++ right.conjuncts
  | t => [t]

/-- Whether a rule fails on a record. -/
def fails (record : Record) (t : Tree) : Bool := !(t.evaluate record).success

/-- The message of a rule that passes. -/
def passedMessage : Tree → String
  | .leaf c => "Condition passed: " ++ c.field ++ " " ++ c.comparator.symbol ++ " " ++
      c.value.display
  | .join .and _ _ => "Both conditions passed for AND"
  | .join .or _ _ => "One condition passed for OR"

/-- The message of a conjunct that fails. -/
def failedMessage : Tree → String
  | .leaf c => "Condition failed: " ++ c.field ++ " " ++ c.comparator.symbol ++ " " ++
      c.value.display
  | .join _ _ _ => "Both conditions failed for OR"

theorem rootConnective?_of_mem_conjuncts (h : u ∈ t.conjuncts) :
    u.rootConnective? ≠ some .and := by
  fun_induction conjuncts t with
  | case1 left right ih₁ ih₂ => exact (List.mem_append.1 h).elim ih₁ ih₂
  | case2 t hand =>
    obtain rfl := List.mem_singleton.1 h
    cases u with
    | leaf c => simp [rootConnective?]
    | join op left right =>
      rintro hop
      obtain rfl := Option.some.inj hop
      exact hand left right rfl

/-- The first conjunct that fails has the outcome of the whole rule, and there is one just if
    the rule fails. -/
theorem find?_conjuncts (record : Record) (t : Tree) :
    (t.conjuncts.find? (fails record)).map (·.evaluate record) =
      if t.fails record then some (t.evaluate record) else none := by
  fun_induction conjuncts t with
  | case1 left right ih₁ ih₂ =>
    -- The conjuncts on the right count only where none on the left fails, and so does the right
    -- part of a join by `AND`.
    rw [List.find?_append, Option.map_or, ih₁, ih₂]
    simp only [fails, evaluate_join, Outcome.join]
    by_cases hleft : (left.evaluate record).success
    · by_cases hright : (right.evaluate record).success <;> simp [hleft, hright]
    · simp [hleft]
  | case2 t hand =>
    rw [List.find?_singleton]
    split <;> simp

/-! ## Messages -/

/-- The message of a rule that passes is decided by its root. -/
theorem evaluate_of_passes (h : (t.evaluate record).success) :
    t.evaluate record = ⟨true, t.passedMessage⟩ := by
  cases t with
  | leaf c =>
    rw [evaluate_leaf] at h ⊢
    have hmet : c.holds record = true := h
    rw [Condition.outcome, hmet]
    rfl
  | join op left right =>
    rw [evaluate_join] at h ⊢
    cases op with
    | and => exact Outcome.join_and_of_success h
    | or => exact (Outcome.join_or _ _).trans (if_pos h)

/-- The message of a condition and of a join by `OR` that fail is their own. -/
theorem evaluate_of_fails (hroot : t.rootConnective? ≠ some .and)
    (h : ¬(t.evaluate record).success) : t.evaluate record = ⟨false, t.failedMessage⟩ := by
  cases t with
  | leaf c =>
    rw [evaluate_leaf] at h ⊢
    have hmet : c.holds record = false := Bool.eq_false_iff.2 h
    rw [Condition.outcome, hmet]
    rfl
  | join op left right =>
    rw [evaluate_join] at h ⊢
    cases op with
    | and => exact absurd rfl hroot
    | or => exact (Outcome.join_or _ _).trans (if_neg h)

/-! ## Grouping -/

/-- One rule becomes the other if, at one place, three parts that are joined by one connective
    are grouped to the right and not to the left. -/
inductive Regroups : Tree → Tree → Prop
  | here (op : Connective) (x y z : Tree) :
    Regroups (.join op (.join op x y) z) (.join op x (.join op y z))
  | left (op : Connective) (right : Tree) {t u : Tree} : Regroups t u →
    Regroups (.join op t right) (.join op u right)
  | right (op : Connective) (left : Tree) {t u : Tree} : Regroups t u →
    Regroups (.join op left t) (.join op left u)

theorem Regroups.evaluate_eq (h : Regroups t u) : t.evaluate record = u.evaluate record := by
  induction h with
  | here op x y z => simp only [evaluate_join, Outcome.join_assoc]
  | left op right _ ih => rw [evaluate_join, evaluate_join, ih]
  | right op left _ ih => rw [evaluate_join, evaluate_join, ih]

/-! ## Blame -/

/-- The conjuncts of a rule are conditions and joins by `OR`. If one of them fails, the outcome
    of the rule is that of the first one that does, with its own message; if none does, the rule
    passes with the message of its root. Another grouping at any place of the rule makes no
    difference to the outcome. -/
theorem evaluate_of_conjuncts (record : Record) (t : Tree) :
    (∀ u ∈ t.conjuncts, u.rootConnective? ≠ some .and) ∧
    (∀ u, t.conjuncts.find? (fails record) = some u →
      t.evaluate record = u.evaluate record ∧ u.evaluate record = ⟨false, u.failedMessage⟩) ∧
    (t.conjuncts.find? (fails record) = none → t.evaluate record = ⟨true, t.passedMessage⟩) ∧
    ∀ u, Regroups t u → t.evaluate record = u.evaluate record := by
  have hfirst := find?_conjuncts record t
  refine ⟨fun u => rootConnective?_of_mem_conjuncts, fun u hu => ⟨?_, ?_⟩, fun hnone => ?_,
    fun u => Regroups.evaluate_eq⟩
  · rw [hu, Option.map_some] at hfirst
    split at hfirst
    · exact (Option.some.inj hfirst).symm
    · simp at hfirst
  · have hfails : u.fails record = true := List.find?_some hu
    exact evaluate_of_fails (rootConnective?_of_mem_conjuncts (List.mem_of_find?_eq_some hu))
      (by simpa [fails] using hfails)
  · rw [hnone, Option.map_none] at hfirst
    refine evaluate_of_passes ?_
    split at hfirst
    · simp at hfirst
    · rename_i hpasses
      simpa [fails] using hpasses

/-- The first conjunct that fails is a join by `OR` in the middle, although a condition before
    it fails as a part of another one and the last conjunct fails as well. -/
theorem evaluate_of_conjuncts_middle :
    let c (field : String) : Tree := .leaf ⟨field, .greater, .number (.ofInt 1)⟩
    let middle := join .or (c "c") (c "d")
    let t := join .and (.join .and (.join .or (c "a") (c "b")) middle) (c "e")
    let record := Table.ofList [("b", Value.number (.ofInt 2))]
    t.conjuncts.find? (fails record) = some middle ∧
      t.evaluate record = ⟨false, "Both conditions failed for OR"⟩ := by
  intro c middle t record
  have hfirst : t.conjuncts.find? (fails record) = some middle := by decide +kernel
  obtain ⟨-, hblame, -, -⟩ := evaluate_of_conjuncts record t
  obtain ⟨heq, hmessage⟩ := hblame middle hfirst
  exact ⟨hfirst, heq.trans hmessage⟩

end Tree

end Criteria

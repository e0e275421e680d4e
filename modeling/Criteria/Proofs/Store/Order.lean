import Criteria.StoredRule
import Mathlib.Data.List.Sort

/-!
# The order of a listing

Rules are listed by the times of their creation, and rules of one time by their ids. Rules
with different ids have different places, so that their listing is determined by which
rules there are.

* `StoredRule.place`, `StoredRule.Before`: where a rule is listed;
* `StoredRule.pairwise_inOrder`: rules with different ids are listed by their places.
-/

namespace Criteria.StoredRule

/-- Where a rule is listed: the time of its creation, and its id. -/
def place (rule : StoredRule) : Timestamp × String := (rule.created, rule.id)

/-- One place lies before another: at an earlier time, or at the same with a smaller id. -/
def Before (p q : Timestamp × String) : Prop :=
  p.1.position < q.1.position ∨ p.1.position = q.1.position ∧ p.2 < q.2

instance : Std.Asymm Before where
  asymm p q := by
    rintro (hlt | ⟨heq, hid⟩)
    · rintro (hgt | ⟨heq, -⟩)
      · exact Int.lt_asymm hlt hgt
      · exact Int.lt_irrefl _ (heq ▸ hlt)
    · rintro (hgt | ⟨-, hid'⟩)
      · exact Int.lt_irrefl _ (heq ▸ hgt)
      · exact String.lt_asymm hid hid'

theorem precedes_iff {r s : StoredRule} :
    precedes r s ↔ r.created.position < s.created.position ∨
      r.created.position = s.created.position ∧ r.id ≤ s.id := by
  simp [precedes]

theorem precedes_trans (r s t : StoredRule) (hrs : precedes r s) (hst : precedes s t) :
    precedes r t := by
  rw [precedes_iff] at *
  rcases hrs with hrs | ⟨hrs, hid⟩
  · exact .inl (by omega)
  · rcases hst with hst | ⟨hst, hid'⟩
    · exact .inl (by omega)
    · exact .inr ⟨hrs.trans hst, String.le_trans hid hid'⟩

theorem precedes_total (r s : StoredRule) : precedes r s || precedes s r := by
  rw [Bool.or_eq_true, precedes_iff, precedes_iff]
  rcases Int.lt_trichotomy r.created.position s.created.position with h | h | h
  · exact .inl (.inl h)
  · exact (String.le_total r.id s.id).imp (fun hid => .inr ⟨h, hid⟩) fun hid => .inr ⟨h.symm, hid⟩
  · exact .inr (.inl h)

theorem before_of_precedes {r s : StoredRule} (h : precedes r s) (hne : r.id ≠ s.id) :
    Before r.place s.place :=
  (precedes_iff.1 h).imp_right fun ⟨heq, hid⟩ => ⟨heq, Std.lt_of_le_of_ne hid hne⟩

/-- Rules with different ids are listed by their places. -/
theorem pairwise_inOrder {rules : List StoredRule} (h : (rules.map (·.id)).Nodup) :
    (inOrder rules).Pairwise (InvImage Before place) := by
  have hids : ((inOrder rules).map (·.id)).Nodup :=
    ((rules.mergeSort_perm precedes).map (·.id)).nodup_iff.2 h
  have hsorted := List.pairwise_mergeSort precedes_trans precedes_total rules
  exact hsorted.imp₂ (fun _ _ => before_of_precedes) (List.pairwise_map.1 hids)

end Criteria.StoredRule

import Criteria.Proofs.Condition.Text
import Criteria.Proofs.Tree.Related

/-!
# Equality of trees

Trees are equal in shape and connectives, and in the values of their conditions as values
are: the two zeros are equal, and not-a-number is not equal to itself. So equality is
symmetric and transitive, but a tree is equal to itself only where its numbers are.

* `Tree.beq_iff_rel`: equality place by place;
* `Tree.beq_self`: a tree with finite values is equal to itself;
* `Tree.assign_beq_assign`: equal trees are equal after the same edit;
* `Tree.assign_assign`, `Tree.assign_comm`: two edits of one field, and edits of two fields.
-/

namespace Criteria

/-! ## Values -/

namespace Number

variable {x y : Number}

/-- Two numbers are equal if they have the same place. -/
theorem beq_iff : (x == y) = true ↔ ∃ place, x.place? = some place ∧ y.place? = some place := by
  change equal x y = true ↔ _
  rw [equal]
  cases x.place? with
  | none => simp
  | some place => cases y.place? <;> simp [eq_comm (a := place)]

instance : PartialEquivBEq Number where
  symm h := by
    obtain ⟨place, hx, hy⟩ := beq_iff.1 h
    exact beq_iff.2 ⟨place, hy, hx⟩
  trans h h' := by
    obtain ⟨place, hx, hy⟩ := beq_iff.1 h
    obtain ⟨place', hy', hz⟩ := beq_iff.1 h'
    obtain rfl := Option.some.inj (hy.symm.trans hy')
    exact beq_iff.2 ⟨place, hx, hz⟩

end Number

namespace Value

variable {v w : Value}

/-- Two values are equal if they are one text or equal numbers. -/
theorem beq_iff : (v == w) = true ↔
    (∃ x y, v = .number x ∧ w = .number y ∧ (x == y) = true) ∨ ∃ s, v = .text s ∧ w = .text s := by
  change equal v w = true ↔ _
  cases v with
  | number x => cases w <;> simp [equal]
  | text s =>
    cases w with
    | number y => simp [equal]
    | text t => simp [equal, eq_comm (a := t)]

theorem beq_self (h : v.isFinite) : (v == v) = true := by
  cases v with
  | number x =>
    cases x with
    | finite negative rank => exact Number.beq_self_of_finite negative rank
    | nan | infinite negative => simp [isFinite, Number.isFinite] at h
  | text s => exact beq_self_eq_true s

instance : PartialEquivBEq Value where
  symm h := by
    rcases beq_iff.1 h with ⟨x, y, rfl, rfl, hxy⟩ | ⟨s, rfl, rfl⟩
    · exact beq_iff.2 (.inl ⟨y, x, rfl, rfl, BEq.symm hxy⟩)
    · exact beq_self rfl
  trans h h' := by
    rcases beq_iff.1 h with ⟨x, y, rfl, rfl, hxy⟩ | ⟨s, rfl, rfl⟩
    · rcases beq_iff.1 h' with ⟨y', z, heq, rfl, hyz⟩ | ⟨s, heq, -⟩
      · obtain rfl := Value.number.inj heq
        exact beq_iff.2 (.inl ⟨x, z, rfl, rfl, BEq.trans hxy hyz⟩)
      · simp at heq
    · exact h'

end Value

/-! ## Conditions -/

namespace Condition

variable {c d : Condition} {field other : String} {value new : Value}

instance : PartialEquivBEq Condition where
  symm h := by
    obtain ⟨hf, hc, hv⟩ := beq_iff.1 h
    exact beq_iff.2 ⟨hf.symm, hc.symm, BEq.symm hv⟩
  trans h h' := by
    obtain ⟨hf, hc, hv⟩ := beq_iff.1 h
    obtain ⟨hf', hc', hv'⟩ := beq_iff.1 h'
    exact beq_iff.2 ⟨hf.trans hf', hc.trans hc', BEq.trans hv hv'⟩

theorem field_assign (field : String) (value : Value) (c : Condition) :
    (c.assign field value).field = c.field := by
  rw [assign]
  split <;> rfl

theorem assign_beq_assign (hv : value.isFinite) (h : (c == d) = true) :
    (c.assign field value == d.assign field value) = true := by
  obtain ⟨hfield, hcomparator, -⟩ := beq_iff.1 h
  rw [assign, assign, hfield]
  split
  · exact beq_iff.2 ⟨rfl, hcomparator, Value.beq_self hv⟩
  · exact h

/-- Of two values for a field the second one counts. -/
theorem assign_assign (c : Condition) :
    (c.assign field value).assign field new = c.assign field new := by
  rw [assign, field_assign]
  split <;> simp_all [assign]

/-- Values for two fields go into different conditions. -/
theorem assign_comm (h : field ≠ other) (c : Condition) :
    (c.assign field value).assign other new = (c.assign other new).assign field value := by
  rw [assign, field_assign, assign, assign, field_assign, assign]
  split <;> split <;> simp_all

end Condition

/-! ## Trees -/

namespace Tree

variable {t u : Tree} {op op' : Connective} {field other : String} {value new : Value}

theorem join_beq_join {left right left' right' : Tree} :
    (join op left right == join op' left' right') = true ↔
      op = op' ∧ (left == left') = true ∧ (right == right') = true := by
  change equal (join op left right) (join op' left' right') = true ↔ _
  rw [equal, Bool.and_eq_true, Bool.and_eq_true, beq_iff_eq, and_assoc]
  rfl

/-- Trees are equal if they have one shape and their conditions are equal place by place. -/
theorem beq_iff_rel : (t == u) = true ↔ Rel Eq (fun c d => (c == d) = true) t u := by
  constructor
  · intro h
    induction t generalizing u with
    | leaf c =>
      cases u with
      | leaf d => exact .leaf h
      | join => exact absurd h Bool.false_ne_true
    | join op left right ih₁ ih₂ =>
      cases u with
      | leaf => exact absurd h Bool.false_ne_true
      | join op' left' right' =>
        obtain ⟨hop, hleft, hright⟩ := join_beq_join.1 h
        exact .join hop (ih₁ hleft) (ih₂ hright)
  · intro h
    induction h with
    | leaf h => exact h
    | join hop _ _ ih₁ ih₂ => exact join_beq_join.2 ⟨hop, ih₁, ih₂⟩

/-- A tree with finite values is equal to itself. -/
theorem beq_self (h : ∀ c ∈ t.leaves, c.value.isFinite) : (t == t) = true :=
  beq_iff_rel.2 <| rel_refl (fun _ => rfl) fun c hc =>
    Condition.beq_iff.2 ⟨rfl, rfl, Value.beq_self (h c hc)⟩

instance : PartialEquivBEq Tree where
  symm h := beq_iff_rel.2 ((beq_iff_rel.1 h).symm Eq.symm BEq.symm)
  trans h h' := beq_iff_rel.2 ((beq_iff_rel.1 h).trans Eq.trans BEq.trans (beq_iff_rel.1 h'))

/-! ### After edits -/

/-- Equal trees stay equal where equal conditions do. -/
theorem mapLeaves_beq_mapLeaves {f : Condition → Condition}
    (hf : ∀ {c d}, (c == d) = true → (f c == f d) = true) (h : (t == u) = true) :
    (t.mapLeaves f == u.mapLeaves f) = true :=
  beq_iff_rel.2 ((beq_iff_rel.1 h).mapLeaves hf)

/-- Equal trees are equal after the same edit. -/
theorem assign_beq_assign (hv : value.isFinite) (h : (t == u) = true) :
    (t.assign field value == u.assign field value) = true := by
  rw [assign_eq_mapLeaves, assign_eq_mapLeaves]
  exact mapLeaves_beq_mapLeaves (Condition.assign_beq_assign hv) h

theorem assign_assign (t : Tree) :
    (t.assign field value).assign field new = t.assign field new := by
  simp only [assign_eq_mapLeaves, mapLeaves_mapLeaves, Condition.assign_assign]

theorem assign_comm (h : field ≠ other) (t : Tree) :
    (t.assign field value).assign other new = (t.assign other new).assign field value := by
  simp only [assign_eq_mapLeaves, mapLeaves_mapLeaves, Condition.assign_comm h]

theorem setRoot_beq_setRoot (h : (t == u) = true) : (t.setRoot op == u.setRoot op) = true :=
  beq_iff_rel.2 ((beq_iff_rel.1 h).setRoot rfl)

theorem setRoot_setRoot (t : Tree) : (t.setRoot op).setRoot op = t.setRoot op := by
  cases t <;> rfl

end Tree

end Criteria

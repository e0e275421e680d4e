import Criteria.Proofs.Evaluation.Blame
import Criteria.Proofs.Tree.Stages

/-!
# Evaluating joined rules

A rule that is joined from others comes to what its parts come to, in their order: joined by
`AND`, to the outcome of the first part that fails; joined by `OR`, to whether any part
passes. With both connectives among them, the connectives are applied one after the other
from the left, and their strength does not count.

* `Connective.holdsAll`: whether rules joined from the left pass;
* `Tree.evaluate_of_joined`: the outcome of a joined rule from its parts.
-/

namespace Criteria

/-- Whether rules pass that are joined from the left, given whether each of them does: the first
    one, and further ones with a connective before each. -/
def Connective.holdsAll (first : Bool) (more : List Bool) (ops : List Connective) : Bool :=
  (more.zip ops).foldl (fun passed entry => entry.2.holds passed entry.1) first

namespace Tree

variable {limit : Nat} {root first second t : Tree} {rest : List Tree} {ops : List Connective}
  {more : List (Tree × Connective)}

/-! ## Trees joined onto a tree -/

theorem success_joinFrom (record : Record) (root : Tree) (more : List (Tree × Connective)) :
    ((joinFrom root more).evaluate record).success =
      more.foldl (fun passed entry => entry.2.holds passed (entry.1.evaluate record).success)
        (root.evaluate record).success := by
  induction more generalizing root with
  | nil => rfl
  | cons entry more ih =>
    obtain ⟨tree, op⟩ := entry
    rw [joinFrom_cons, ih, evaluate_join, Outcome.success_join, List.foldl_cons]

theorem success_joinFrom_or (record : Record) (h : ∀ entry ∈ more, entry.2 = .or) :
    ((joinFrom root more).evaluate record).success =
      ((root.evaluate record).success ||
        more.any fun entry => (entry.1.evaluate record).success) := by
  induction more generalizing root with
  | nil => simp
  | cons entry more ih =>
    obtain ⟨tree, op⟩ := entry
    obtain ⟨rfl, hmore⟩ := List.forall_mem_cons.1 h
    rw [joinFrom_cons, ih hmore, evaluate_join, Outcome.success_join, Connective.holds,
      List.any_cons, Bool.or_assoc]

theorem conjuncts_joinFrom (h : ∀ entry ∈ more, entry.2 = .and) :
    (joinFrom root more).conjuncts = root.conjuncts ++ more.flatMap (·.1.conjuncts) := by
  induction more generalizing root with
  | nil => simp
  | cons entry more ih =>
    obtain ⟨tree, op⟩ := entry
    obtain ⟨rfl, hmore⟩ := List.forall_mem_cons.1 h
    rw [joinFrom_cons, ih hmore, conjuncts, List.append_assoc, List.flatMap_cons]

/-- The last connective is at the root. -/
theorem exists_joinFrom_eq_join {op : Connective} (hne : more ≠ [])
    (h : ∀ entry ∈ more, entry.2 = op) :
    ∃ left right, joinFrom root more = .join op left right := by
  obtain ⟨init, ⟨tree, op'⟩, rfl⟩ := (List.eq_nil_or_concat more).resolve_left hne
  obtain rfl := h (tree, op') (by simp)
  exact ⟨_, tree, by rw [List.concat_eq_append, joinFrom_concat]⟩

/-! ## Parts of a joined rule -/

/-- The first conjunct of any of the rules that fails has the outcome of the first of the rules
    that fails. -/
theorem find?_flatMap_conjuncts (record : Record) (trees : List Tree) :
    ((trees.flatMap conjuncts).find? (fails record)).map (·.evaluate record) =
      (trees.find? (fails record)).map (·.evaluate record) := by
  induction trees with
  | nil => rfl
  | cons t trees ih =>
    rw [List.flatMap_cons, List.find?_append, Option.map_or, find?_conjuncts, ih, List.find?_cons]
    cases t.fails record <;> rfl

/-- Rules joined by one connective are joined onto the first one with it in each place, and so it
    is at the root. -/
theorem exists_of_joinUniformly {op : Connective}
    (h : joinUniformly (first :: second :: rest) op = .ok t) :
    ∃ more, more.map (·.1) = second :: rest ∧ (∀ entry ∈ more, entry.2 = op) ∧
      t = joinFrom first more ∧ ∃ left right, t = .join op left right := by
  obtain ⟨hlength, rfl, -⟩ := of_joinAll h
  have hmore := List.map_fst_zip (Nat.le_of_eq hlength.symm)
  have hop : ∀ entry ∈ (second :: rest).zip (List.replicate (rest.length + 1) op), entry.2 = op :=
    fun entry hentry => List.eq_of_mem_replicate (List.of_mem_zip hentry).2
  exact ⟨_, hmore, hop, rfl, exists_joinFrom_eq_join (by simp [List.replicate_succ]) hop⟩

theorem evaluate_of_joinedByAnd (record : Record)
    (h : joinUniformly (first :: second :: rest) .and = .ok t) :
    t.evaluate record =
      (((first :: second :: rest).find? (fails record)).map (·.evaluate record)).getD
        ⟨true, "Both conditions passed for AND"⟩ := by
  obtain ⟨more, hmore, hand, rfl, left, right, hroot⟩ := exists_of_joinUniformly h
  have hconjuncts : (joinFrom first more).conjuncts =
      (first :: second :: rest).flatMap conjuncts := by
    rw [conjuncts_joinFrom hand, ← hmore, List.flatMap_cons, List.flatMap_map]
  rw [← find?_flatMap_conjuncts, ← hconjuncts, find?_conjuncts]
  split
  · rfl
  · rename_i hpasses
    rw [evaluate_of_passes (by simpa [fails] using hpasses), hroot]
    rfl

theorem evaluate_of_joinedByOr (record : Record)
    (h : joinUniformly (first :: second :: rest) .or = .ok t) :
    t.evaluate record =
      if (first :: second :: rest).any fun u => (u.evaluate record).success then
        ⟨true, "One condition passed for OR"⟩
      else ⟨false, "Both conditions failed for OR"⟩ := by
  obtain ⟨more, hmore, hor, rfl, left, right, hroot⟩ := exists_of_joinUniformly h
  have hany : (first :: second :: rest).any (fun u => (u.evaluate record).success) =
      ((joinFrom first more).evaluate record).success := by
    rw [success_joinFrom_or record hor, ← hmore, List.any_cons, List.any_map]
    rfl
  rw [hany, hroot, evaluate_join]
  exact Outcome.join_or _ _

theorem success_of_joinAll (record : Record) (h : joinAll limit (first :: rest) ops = .ok t) :
    (t.evaluate record).success =
      Connective.holdsAll (first.evaluate record).success
        (rest.map fun u => (u.evaluate record).success) ops := by
  obtain ⟨-, rfl, -⟩ := of_joinAll h
  rw [success_joinFrom, Connective.holdsAll, List.zip_map_left, List.foldl_map]
  rfl

/-- Two and more rules that are joined by `AND` come to the outcome of the first of them that
    fails, and joined by `OR` to whether any of them passes. With any connectives, whether the
    joined rule passes is decided from the left, without regard to their strength. -/
theorem evaluate_of_joined (record : Record) (first second : Tree) (rest : List Tree) :
    (∀ t, joinUniformly (first :: second :: rest) .and = .ok t → t.evaluate record =
      (((first :: second :: rest).find? (fails record)).map (·.evaluate record)).getD
        ⟨true, "Both conditions passed for AND"⟩) ∧
    (∀ t, joinUniformly (first :: second :: rest) .or = .ok t → t.evaluate record =
      if (first :: second :: rest).any fun u => (u.evaluate record).success then
        ⟨true, "One condition passed for OR"⟩
      else ⟨false, "Both conditions failed for OR"⟩) ∧
    ∀ limit ops t, joinAll limit (first :: second :: rest) ops = .ok t →
      (t.evaluate record).success =
        Connective.holdsAll (first.evaluate record).success
          ((second :: rest).map fun u => (u.evaluate record).success) ops :=
  ⟨fun _ => evaluate_of_joinedByAnd record, fun _ => evaluate_of_joinedByOr record,
    fun _ _ _ => success_of_joinAll record⟩

/-- Joined from the left, a rule fails that would pass if `AND` bound tighter than `OR`; by one
    connective, the same parts give the outcome of the second one, or pass. -/
theorem evaluate_of_joined_three :
    let c (field : String) : Tree := .leaf ⟨field, .greater, .number (.ofInt 1)⟩
    let trees := [c "a", .join .or (c "b") (c "c"), c "d"]
    let record := Table.ofList [("a", Value.number (.ofInt 2))]
    (∃ t, joinAll 4 trees [.or, .and] = .ok t ∧ (t.evaluate record).success = false) ∧
      (∃ t, joinUniformly trees .and = .ok t ∧
        t.evaluate record = ⟨false, "Both conditions failed for OR"⟩) ∧
      ∃ t, joinUniformly trees .or = .ok t ∧
        t.evaluate record = ⟨true, "One condition passed for OR"⟩ := by
  intro c trees record
  let part := Tree.join .or (c "b") (c "c")
  obtain ⟨hand, hor, hmixed⟩ := evaluate_of_joined record (c "a") part [c "d"]
  have hmix : joinAll 4 trees [.or, .and] =
      .ok (.join .and (.join .or (c "a") part) (c "d")) := by decide +kernel
  have hall : joinUniformly trees .and =
      .ok (.join .and (.join .and (c "a") part) (c "d")) := by decide +kernel
  have hany : joinUniformly trees .or =
      .ok (.join .or (.join .or (c "a") part) (c "d")) := by decide +kernel
  refine ⟨⟨_, hmix, (hmixed _ _ _ hmix).trans ?_⟩, ⟨_, hall, (hand _ hall).trans ?_⟩,
    ⟨_, hany, (hor _ hany).trans ?_⟩⟩
  · decide +kernel
  · decide +kernel
  · decide +kernel

end Tree

end Criteria

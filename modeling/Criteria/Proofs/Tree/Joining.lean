import Criteria.Proofs.Tree.Depth
import Criteria.Tree.Joining

/-!
# What is joined

Joined trees are no deeper than the limit, and have the leaves of the parts in their
order.

* `Tree.joinFrom`: further trees joined onto a tree without a limit;
* `Tree.joinOnto_cases`: with a limit, this is the result or the first join beyond it fails;
* `Tree.height_le_of_joinAll`: the limit is kept;
* `Tree.leaves_of_joinAll`: no leaf is lost, added or moved;
* `Tree.joinAll_eq_ite`: parts within the limit are joined if the whole is within it.
-/

namespace Criteria

namespace Tree

variable {limit : Nat} {root first t : Tree} {trees rest : List Tree} {ops : List Connective}
  {before more : List (Tree × Connective)}

/-! ## Trees joined onto a tree -/

/-- Further trees joined onto a tree, as deep as that gets. -/
def joinFrom (root : Tree) (more : List (Tree × Connective)) : Tree :=
  more.foldl (fun root entry => .join entry.2 root entry.1) root

@[simp]
theorem joinFrom_nil (root : Tree) : joinFrom root [] = root := rfl

@[simp]
theorem joinFrom_cons (root tree : Tree) (op : Connective) (more : List (Tree × Connective)) :
    joinFrom root ((tree, op) :: more) = joinFrom (.join op root tree) more := rfl

@[simp]
theorem joinFrom_concat (root tree : Tree) (op : Connective) (more : List (Tree × Connective)) :
    joinFrom root (more ++ [(tree, op)]) = .join op (joinFrom root more) tree := by
  rw [joinFrom, List.foldl_append]
  rfl

theorem leaves_joinFrom (root : Tree) (more : List (Tree × Connective)) :
    (joinFrom root more).leaves = root.leaves ++ more.flatMap (·.1.leaves) := by
  induction more generalizing root with
  | nil => simp
  | cons entry more ih =>
    obtain ⟨tree, op⟩ := entry
    rw [joinFrom_cons, ih, leaves, List.append_assoc, List.flatMap_cons]

theorem height_le_height_joinFrom (root : Tree) (more : List (Tree × Connective)) :
    root.height ≤ (joinFrom root more).height := by
  induction more generalizing root with
  | nil => exact Nat.le_refl _
  | cons entry more ih =>
    have hjoin : root.height ≤ (join entry.2 root entry.1).height :=
      Nat.le_succ_of_le (Nat.le_max_left _ _)
    exact Nat.le_trans hjoin (ih _)

/-- More trees do not make a join less deep. -/
theorem height_joinFrom_le_joinFrom (root : Tree) (h : before <+: more) :
    (joinFrom root before).height ≤ (joinFrom root more).height := by
  obtain ⟨after, rfl⟩ := h
  rw [joinFrom, joinFrom, List.foldl_append]
  exact height_le_height_joinFrom _ after

/-! ## Joining -/

/-- One join, with the depth of the result checked before it. -/
theorem joinOnto_cons (root tree : Tree) (op : Connective) (more : List (Tree × Connective)) :
    joinOnto limit root root.height ((tree, op) :: more) =
      if limit < (join op root tree).height then
        .error (.tooDeep (join op root tree).height limit)
      else joinOnto limit (join op root tree) (join op root tree).height more := by
  rw [joinOnto, depth_eq_height]
  rfl

/-- Joining onto a tree within the limit gives the whole, or fails at the first join that is
    beyond the limit, with the depth that this join would have. -/
theorem joinOnto_cases (more : List (Tree × Connective)) (hroot : root.height ≤ limit) :
    ((joinFrom root more).height ≤ limit ∧
        joinOnto limit root root.height more = .ok (joinFrom root more)) ∨
      ∃ before entry after, more = before ++ entry :: after ∧
        (joinFrom root before).height ≤ limit ∧
        limit < (joinFrom root (before ++ [entry])).height ∧
        joinOnto limit root root.height more =
          .error (.tooDeep (joinFrom root (before ++ [entry])).height limit) := by
  induction more generalizing root with
  | nil => exact .inl ⟨hroot, rfl⟩
  | cons entry more ih =>
    obtain ⟨tree, op⟩ := entry
    rw [joinOnto_cons]
    by_cases hlt : limit < (join op root tree).height
    · rw [if_pos hlt]
      exact .inr ⟨[], (tree, op), more, rfl, hroot, hlt, rfl⟩
    · rw [if_neg hlt]
      rcases ih (Nat.le_of_not_lt hlt) with hwhole | ⟨before, entry, after, rfl, hbeyond⟩
      · exact .inl hwhole
      · exact .inr ⟨(tree, op) :: before, entry, after, rfl, hbeyond⟩

/-- What is joined is all of the trees, within the limit. -/
theorem of_joinAll (h : joinAll limit (first :: rest) ops = .ok t) :
    ops.length = rest.length ∧ t = joinFrom first (rest.zip ops) ∧ t.height ≤ limit := by
  rw [joinAll, depth_eq_height] at h
  split at h
  · simp at h
  · rename_i hlength
    split at h
    · simp at h
    · rename_i hfirst
      refine ⟨Decidable.not_not.1 hlength, ?_⟩
      rcases joinOnto_cases (rest.zip ops) (Nat.le_of_not_lt hfirst) with
        ⟨hwithin, hjoin⟩ | ⟨before, entry, after, -, -, -, hjoin⟩
      · obtain rfl := Except.ok.inj (h.symm.trans hjoin)
        exact ⟨rfl, hwithin⟩
      · exact nomatch h.symm.trans hjoin

theorem height_le_of_joinAll (h : joinAll limit trees ops = .ok t) : t.height ≤ limit := by
  cases trees with
  | nil => simp [joinAll] at h
  | cons first rest => exact (of_joinAll h).2.2

theorem leaves_of_joinAll (h : joinAll limit trees ops = .ok t) :
    t.leaves = trees.flatMap leaves := by
  cases trees with
  | nil => simp [joinAll] at h
  | cons first rest =>
    obtain ⟨hlength, rfl, -⟩ := of_joinAll h
    -- All further trees have a connective, so none is cut off.
    have hzip : (rest.zip ops).flatMap (·.1.leaves) = rest.flatMap leaves := by
      rw [← List.flatMap_map, List.map_fst_zip (Nat.le_of_eq hlength.symm)]
    rw [leaves_joinFrom, List.flatMap_cons, hzip]

/-! ## Parts within the limit -/

/-- Trees within the limit are joined onto one another, or the first join beyond it fails,
    which is one level deeper than allowed. -/
theorem joinOnto_eq_ite (hroot : root.height ≤ limit)
    (hmore : ∀ entry ∈ more, entry.1.height ≤ limit) :
    joinOnto limit root root.height more =
      if (joinFrom root more).height ≤ limit then .ok (joinFrom root more)
      else .error (.tooDeep (limit + 1) limit) := by
  rcases joinOnto_cases more hroot with
    ⟨hwithin, hjoin⟩ | ⟨before, ⟨tree, op⟩, after, rfl, hbefore, hbeyond, hjoin⟩
  · rw [hjoin, if_pos hwithin]
  · have htree : tree.height ≤ limit := hmore (tree, op) (by simp)
    have hheight : (joinFrom root (before ++ [(tree, op)])).height = limit + 1 := by
      rw [joinFrom_concat, height] at hbeyond ⊢
      omega
    have hprefix : before ++ [(tree, op)] <+: before ++ (tree, op) :: after := ⟨after, by simp⟩
    have hle := height_joinFrom_le_joinFrom root hprefix
    rw [hjoin, hheight, if_neg (by omega)]

theorem joinAll_eq_ite (hlength : ops.length = rest.length)
    (hall : ∀ tree ∈ first :: rest, tree.height ≤ limit) :
    joinAll limit (first :: rest) ops =
      if (joinFrom first (rest.zip ops)).height ≤ limit then .ok (joinFrom first (rest.zip ops))
      else .error (.tooDeep (limit + 1) limit) := by
  obtain ⟨hfirst, hrest⟩ := List.forall_mem_cons.1 hall
  rw [joinAll, if_neg (Decidable.not_not.2 hlength), depth_eq_height, if_neg (Nat.not_lt.2 hfirst)]
  exact joinOnto_eq_ite hfirst fun entry hentry => hrest _ (List.of_mem_zip hentry).1

end Tree

end Criteria

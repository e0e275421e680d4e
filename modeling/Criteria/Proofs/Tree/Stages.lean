import Criteria.Proofs.Tree.Joining
import Mathlib.Data.List.Induction

/-!
# Stages of joining

Joining a list of trees goes through the joins of its first tree, its first two trees, its
first three trees, and so on. The whole is joined if it is within the limit; else the first
of these joins that is beyond the limit is blamed, with its own depth.

* `Tree.joinFirst`: the join of the first trees of a list;
* `Tree.FirstBeyond`: the first of these joins that is beyond a limit;
* `Tree.joinAll_iff_joinFirst`: what joining comes to, for any trees and connectives.
-/

namespace Criteria

namespace Tree

variable {limit count : Nat} {first t u : Tree} {trees rest : List Tree} {ops : List Connective}
  {before after : List (Tree × Connective)} {entry : Tree × Connective}

/-! ## The first trees -/

/-- The join of the first `count` trees: that of all of them but the last, and the last. -/
def joinFirst (trees : List Tree) (ops : List Connective) : Nat → Option Tree
  | 0 => none
  | 1 => trees[0]?
  | count + 2 => do
    let op ← ops[count]?
    let left ← joinFirst trees ops (count + 1)
    let right ← trees[count + 1]?
    return .join op left right

/-- The join of the first `count` trees is the first of these joins that is deeper than the
    limit. -/
structure FirstBeyond (limit : Nat) (trees : List Tree) (ops : List Connective) (count : Nat)
    (t : Tree) : Prop where
  joins : joinFirst trees ops count = some t
  beyond : limit < t.depth
  within : ∀ fewer < count, ∀ u, joinFirst trees ops fewer = some u → u.depth ≤ limit

theorem FirstBeyond.unique {count' : Nat} (h : FirstBeyond limit trees ops count t)
    (h' : FirstBeyond limit trees ops count' u) : t = u := by
  rcases Nat.lt_trichotomy count count' with hlt | rfl | hlt
  · exact absurd (h'.within count hlt t h.joins) (Nat.not_le_of_lt h.beyond)
  · exact Option.some.inj (h.joins.symm.trans h'.joins)
  · exact absurd (h.within count' hlt u h'.joins) (Nat.not_le_of_lt h'.beyond)

/-- The first trees are joined like those that are joined onto the first one of all. -/
theorem joinFirst_eq_some_iff :
    joinFirst (first :: rest) ops count = some t ↔
      ∃ before, before <+: rest.zip ops ∧ count = before.length + 1 ∧
        t = joinFrom first before := by
  fun_induction joinFirst (first :: rest) ops count generalizing t with
  | case1 => simp
  | case2 => simp [eq_comm]
  | case3 count ih =>
    simp only [Option.bind_eq_bind, Option.bind_eq_some_iff, Option.pure_def, ih,
      Option.some.injEq, List.getElem?_cons_succ]
    constructor
    · rintro ⟨op, hop, -, ⟨before, ⟨after, hafter⟩, hcount, rfl⟩, tree, htree, rfl⟩
      obtain rfl := Nat.succ.inj hcount
      -- What comes next in the list is the tree with its connective.
      have hentry : (rest.zip ops)[before.length]? = some (tree, op) :=
        List.getElem?_zip_eq_some.2 ⟨htree, hop⟩
      rw [← hafter, List.getElem?_append_right (Nat.le_refl _), Nat.sub_self,
        ← List.head?_eq_getElem?] at hentry
      obtain ⟨tail, rfl⟩ := List.head?_eq_some_iff.1 hentry
      refine ⟨before ++ [(tree, op)], ⟨tail, by simpa using hafter⟩, by simp, by simp⟩
    · rintro ⟨before, ⟨after, hafter⟩, hcount, rfl⟩
      obtain rfl | ⟨init, ⟨tree, op⟩, rfl⟩ := List.eq_nil_or_concat before
      · simp at hcount
      · rw [List.concat_eq_append, List.append_assoc] at hafter
        obtain rfl : count = init.length := by simpa using hcount
        have hentry : (rest.zip ops)[init.length]? = some (tree, op) := by simp [← hafter]
        obtain ⟨htree, hop⟩ := List.getElem?_zip_eq_some.1 hentry
        exact ⟨op, hop, _, ⟨init, ⟨_, hafter⟩, rfl, rfl⟩, tree, htree, by simp⟩

theorem joinFirst_length (h : ops.length = rest.length) :
    joinFirst (first :: rest) ops (first :: rest).length =
      some (joinFrom first (rest.zip ops)) :=
  joinFirst_eq_some_iff.2 ⟨rest.zip ops, List.prefix_rfl, by simp [h], rfl⟩

/-! ## The first join beyond the limit -/

theorem depth_le_of_joinFirst (h : joinFirst (first :: rest) ops count = some t) :
    t.depth ≤ (joinFrom first (rest.zip ops)).depth := by
  obtain ⟨before, hbefore, -, rfl⟩ := joinFirst_eq_some_iff.1 h
  rw [depth_eq_height, depth_eq_height]
  exact height_joinFrom_le_joinFrom first hbefore

/-- Where one more tree takes a join beyond the limit, this is the first join beyond it. -/
theorem firstBeyond_of_append (h : rest.zip ops = before ++ entry :: after)
    (hwithin : (joinFrom first before).height ≤ limit)
    (hbeyond : limit < (joinFrom first (before ++ [entry])).height) :
    FirstBeyond limit (first :: rest) ops (before.length + 2)
      (joinFrom first (before ++ [entry])) := by
  refine ⟨joinFirst_eq_some_iff.2 ⟨before ++ [entry], ⟨after, by simp [h]⟩, by simp, rfl⟩,
    by rwa [depth_eq_height], fun fewer hlt u hu => ?_⟩
  obtain ⟨before', hbefore', rfl, rfl⟩ := joinFirst_eq_some_iff.1 hu
  have hbefore : before <+: rest.zip ops := ⟨_, h.symm⟩
  have hprefix : before' <+: before :=
    List.prefix_of_prefix_length_le hbefore' hbefore (by omega)
  rw [depth_eq_height]
  exact Nat.le_trans (height_joinFrom_le_joinFrom first hprefix) hwithin

/-- With one connective fewer than trees, the whole is joined, or it is beyond the limit and
    the first join beyond the limit is to blame. -/
theorem joinAll_cases (limit : Nat) (first : Tree) (h : ops.length = rest.length) :
    ((joinFrom first (rest.zip ops)).depth ≤ limit ∧
        joinAll limit (first :: rest) ops = .ok (joinFrom first (rest.zip ops))) ∨
      limit < (joinFrom first (rest.zip ops)).depth ∧
        ∃ count t, FirstBeyond limit (first :: rest) ops count t ∧
          joinAll limit (first :: rest) ops = .error (.tooDeep t.depth limit) := by
  rw [joinAll, if_neg (Decidable.not_not.2 h), depth_eq_height, depth_eq_height]
  by_cases hfirst : limit < first.height
  · -- The first tree alone is the first join, and no join is before it.
    refine .inr ⟨Nat.lt_of_lt_of_le hfirst (height_le_height_joinFrom first _), 1, first,
      ⟨rfl, by rwa [depth_eq_height], fun fewer hlt u hu => ?_⟩, ?_⟩
    · obtain rfl := Nat.lt_one_iff.1 hlt
      simp [joinFirst] at hu
    · rw [if_pos hfirst, depth_eq_height]
  · rw [if_neg hfirst]
    rcases joinOnto_cases (rest.zip ops) (Nat.le_of_not_lt hfirst) with
      hwhole | ⟨before, entry, after, heq, hwithin, hbeyond, herror⟩
    · exact .inl hwhole
    · refine .inr ⟨?_, _, _, firstBeyond_of_append heq hwithin hbeyond, ?_⟩
      · rw [heq, ← List.singleton_append, ← List.append_assoc]
        exact Nat.lt_of_lt_of_le hbeyond (height_joinFrom_le_joinFrom _ (List.prefix_append _ _))
      · rw [herror, depth_eq_height]

/-! ## What joining comes to -/

theorem joinAll_eq_noTrees_iff : joinAll limit trees ops = .error .noTrees ↔ trees = [] := by
  cases trees with
  | nil => simp [joinAll]
  | cons first rest =>
    by_cases h : ops.length = rest.length
    · rcases joinAll_cases limit first h with ⟨-, heq⟩ | ⟨-, count, t, -, heq⟩ <;> simp [heq]
    · simp [joinAll, h]

theorem joinAll_eq_operatorCount_iff {m n : Nat} :
    joinAll limit trees ops = .error (.operatorCount n m) ↔
      trees ≠ [] ∧ ops.length + 1 ≠ trees.length ∧ n = trees.length ∧ m = ops.length := by
  cases trees with
  | nil => simp [joinAll]
  | cons first rest =>
    by_cases h : ops.length = rest.length
    · rcases joinAll_cases limit first h with ⟨-, heq⟩ | ⟨-, count, t, -, heq⟩ <;> simp [heq, h]
    · simp [joinAll, h, eq_comm]

/-- Joining fails without trees, and if there is not one connective fewer than trees. Else there
    is a join of all trees, and it is the result just if it is within the limit; if not, the
    first join beyond the limit is blamed, with its own depth. What is joined has the conditions
    of all trees in their order, and joining by one connective is joining with that connective
    in each place, up to the default depth. -/
theorem joinAll_iff_joinFirst (limit : Nat) (trees : List Tree) (ops : List Connective) :
    (joinAll limit trees ops = .error .noTrees ↔ trees = []) ∧
    (∀ n m, joinAll limit trees ops = .error (.operatorCount n m) ↔
      trees ≠ [] ∧ ops.length + 1 ≠ trees.length ∧ n = trees.length ∧ m = ops.length) ∧
    (ops.length + 1 = trees.length →
      ∃ whole, joinFirst trees ops trees.length = some whole ∧
        (∀ t, joinAll limit trees ops = .ok t ↔ t = whole ∧ whole.depth ≤ limit) ∧
        ∀ e, joinAll limit trees ops = .error e ↔
          ∃ count t, FirstBeyond limit trees ops count t ∧ e = .tooDeep t.depth limit) ∧
    (∀ t, joinAll limit trees ops = .ok t → t.conditions = trees.flatMap conditions) ∧
    ∀ op, ops.length = trees.length - 1 → (∀ op' ∈ ops, op' = op) →
      joinUniformly trees op = joinAll defaultTreeDepth trees ops := by
  refine ⟨joinAll_eq_noTrees_iff, fun n m => joinAll_eq_operatorCount_iff, fun hlength => ?_,
    fun t h => ?_, fun op hlength hop => ?_⟩
  · obtain ⟨first, rest, rfl⟩ : ∃ first rest, trees = first :: rest :=
      List.exists_cons_of_ne_nil (List.ne_nil_of_length_eq_add_one hlength.symm)
    have hlength : ops.length = rest.length := by simpa using hlength
    refine ⟨_, joinFirst_length hlength, ?_⟩
    rcases joinAll_cases limit first hlength with ⟨hle, heq⟩ | ⟨hlt, count, t, hfirst, heq⟩
    · refine ⟨fun t => by simp [heq, hle, eq_comm], fun e => ⟨fun h => by simp [heq] at h, ?_⟩⟩
      rintro ⟨count, t, hfirst, -⟩
      have hdepth := depth_le_of_joinFirst hfirst.joins
      exact absurd hfirst.beyond (Nat.not_lt.2 (Nat.le_trans hdepth hle))
    · refine ⟨fun t => ?_, fun e => ⟨fun h => ?_, ?_⟩⟩
      · simp [heq, Nat.not_le.2 hlt]
      · exact ⟨count, t, hfirst, by simpa [heq, eq_comm] using h⟩
      · rintro ⟨count', t', hfirst', rfl⟩
        rw [heq, hfirst.unique hfirst']
  · have hleaves : conditions = leaves := funext conditions_eq_leaves
    rw [hleaves, leaves_of_joinAll h]
  · rw [joinUniformly, ← hlength, ← List.eq_replicate_iff.2 ⟨rfl, hop⟩]

/-- A tree beyond the limit by itself makes the join with it the first beyond the limit, and
    this join is blamed, although the whole is still deeper. -/
theorem joinAll_iff_joinFirst_deep :
    let c (field : String) : Tree := .leaf ⟨field, .greater, .number (.ofInt 1)⟩
    let deep := join .and (c "b") (.join .or (c "c") (c "d"))
    let trees := [c "a", deep, c "e"]
    let ops := [Connective.or, .and]
    ops.length + 1 = trees.length ∧ joinAll 2 trees ops = .error (.tooDeep 4 2) := by
  intro c deep trees ops
  obtain ⟨-, -, hjoins, -, -⟩ := joinAll_iff_joinFirst 2 trees ops
  obtain ⟨whole, -, -, herror⟩ := hjoins rfl
  refine ⟨rfl, (herror _).2 ⟨2, .join .or (c "a") deep, ⟨rfl, by decide +kernel, ?_⟩, ?_⟩⟩
  · rintro (_ | _ | fewer) hlt u hu
    · simp [joinFirst] at hu
    · obtain rfl := Option.some.inj hu
      decide +kernel
    · omega
  · decide +kernel

end Tree

end Criteria

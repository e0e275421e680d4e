import Criteria.Proofs.Tree.Depth
import Criteria.Proofs.Tree.Places
import Mathlib.Algebra.Order.Ring.Nat

/-!
# Visits to pending nodes

Depth and conditions of a tree are found by loops over pending nodes. Each visit takes the first
node, notes something about it, and puts its parts before the other nodes. The loop for the
depth puts the right part first and the one for the conditions the left part. What is noted in
the end is nevertheless what recursion on the tree says, whichever part comes first.

* `Visits`: a loop over pending entries, with the order of its visits;
* `Visits.keeps`: what every visit keeps is kept by the whole loop;
* `visits_iff`: in which order a loop visits, and where it ends;
* `Tree.nodes`: the nodes of a tree in the order of visits;
* `Tree.visits_depth_iff`, `Tree.visits_conditions_iff`: the two loops;
* `Tree.depth_and_conditions_of_parts`: depth and conditions by recursion, and how many
  conditions a tree of some depth has.
-/

namespace Criteria

/-! ## Loops -/

section Loop

variable {σ ν β : Type} {note : σ → ν → σ} {parts : ν → List ν} {s s' s'' : σ}
  {pending visited visited' : List ν}

/-- A loop over pending entries, of which the first comes next: it is noted, and its parts are
    put before the other entries. The loop ends where nothing is pending; the entries that it
    has visited are listed in the order of the visits. -/
inductive Visits (note : σ → ν → σ) (parts : ν → List ν) : σ → List ν → List ν → σ → Prop
  | done (s : σ) : Visits note parts s [] [] s
  | visit {s s' : σ} {entry : ν} {pending visited : List ν} :
    Visits note parts (note s entry) (parts entry ++ pending) visited s' →
      Visits note parts s (entry :: pending) (entry :: visited) s'

/-- What no visit changes is at the end as at the start. -/
theorem Visits.keeps {f : σ → List ν → β}
    (hvisit : ∀ s entry pending, f (note s entry) (parts entry ++ pending) = f s (entry :: pending))
    (h : Visits note parts s pending visited s') : f s' [] = f s pending := by
  induction h with
  | done s => rfl
  | visit _ ih => rw [ih, hvisit]

/-- A loop ends in one way. -/
theorem Visits.unique (h : Visits note parts s pending visited s')
    (h' : Visits note parts s pending visited' s'') : visited = visited' ∧ s' = s'' := by
  induction h generalizing visited' with
  | done s =>
    cases h'
    exact ⟨rfl, rfl⟩
  | visit _ ih =>
    cases h' with
    | visit h' =>
      obtain ⟨rfl, rfl⟩ := ih h'
      exact ⟨rfl, rfl⟩

variable {order : ν → List ν}

variable (note) in
/-- Where each entry has an order of visits, in which it stands before those to its parts, the
    loop follows these orders to the end. -/
theorem visits_flatMap (horder : ∀ entry, order entry = entry :: (parts entry).flatMap order)
    (s : σ) (pending : List ν) :
    Visits note parts s pending (pending.flatMap order) ((pending.flatMap order).foldl note s) := by
  -- Each visit takes one off what is still to be visited.
  induction hn : (pending.flatMap order).length generalizing s pending with
  | zero =>
    cases pending with
    | nil => exact .done s
    | cons entry pending => simp [horder entry] at hn
  | succ n ih =>
    cases pending with
    | nil => simp at hn
    | cons entry pending =>
      have hrest : (entry :: pending).flatMap order =
          entry :: (parts entry ++ pending).flatMap order := by
        rw [List.flatMap_cons, horder, List.cons_append, List.flatMap_append]
      rw [hrest] at hn ⊢
      exact .visit (ih _ _ (Nat.succ.inj hn))

/-- A loop visits the pending entries in their orders, and so it always ends. What it ends in is
    known from any value that no visit changes and that is the state where nothing is pending. -/
theorem visits_iff {f : σ → List ν → σ}
    (horder : ∀ entry, order entry = entry :: (parts entry).flatMap order)
    (hvisit : ∀ s entry pending, f (note s entry) (parts entry ++ pending) = f s (entry :: pending))
    (hdone : ∀ s, f s [] = s) :
    Visits note parts s pending visited s' ↔ visited = pending.flatMap order ∧ s' = f s pending := by
  have hends : Visits note parts s pending (pending.flatMap order) (f s pending) := by
    have h := visits_flatMap note horder s pending
    have hkept := h.keeps hvisit
    rw [hdone] at hkept
    rwa [hkept] at h
  constructor
  · exact fun h => h.unique hends
  · rintro ⟨rfl, rfl⟩
    exact hends

end Loop

namespace Tree

variable {t : Tree}

/-! ## Nodes in the order of visits -/

/-- The parts of a tree, the one on a side first. -/
def partsFrom (first : Side) : Tree → List Tree
  | .leaf _ => []
  | .join _ left right =>
    match first with
    | .left => [left, right]
    | .right => [right, left]

/-- The nodes of a tree with their levels, each before its parts, and all of the part on one
    side before the other part. -/
def nodes (first : Side) (level : Nat) : Tree → List (Tree × Nat)
  | .leaf c => [(.leaf c, level)]
  | .join op left right =>
    (.join op left right, level) ::
      match first with
      | .left => left.nodes first (level + 1) ++ right.nodes first (level + 1)
      | .right => right.nodes first (level + 1) ++ left.nodes first (level + 1)

theorem nodes_eq (first : Side) (level : Nat) (t : Tree) :
    t.nodes first level = (t, level) :: (t.partsFrom first).flatMap (nodes first (level + 1)) := by
  cases t with
  | leaf c => rfl
  | join op left right => cases first <;> simp [nodes, partsFrom]

/-- Every node is visited once, from either side. -/
theorem length_nodes (first : Side) (level : Nat) (t : Tree) :
    (t.nodes first level).length = t.size := by
  induction t generalizing level with
  | leaf c => rfl
  | join op left right ih₁ ih₂ =>
    cases first <;> simp [nodes, size, ih₁, ih₂, Nat.add_comm]

theorem map_nodes (first : Side) (level level' : Nat) (t : Tree) :
    (t.nodes first level).map (·.1) = (t.nodes first level').map (·.1) := by
  induction t generalizing level level' with
  | leaf c => rfl
  | join op left right ih₁ ih₂ =>
    cases first <;>
      simp [nodes, ih₁ (level + 1) (level' + 1), ih₂ (level + 1) (level' + 1)]

/-! ## The loop for the depth -/

/-- The deepest level so far, once a node with its level is visited. -/
def noteLevel (deepest : Nat) (node : Tree × Nat) : Nat := max deepest node.2

/-- The parts of a node, one level below it, the right one first. -/
def partsBelow (node : Tree × Nat) : List (Tree × Nat) :=
  (node.1.partsFrom .right).map (·, node.2 + 1)

theorem deepestOf_visit (deepest : Nat) (node : Tree × Nat) (pending : List (Tree × Nat)) :
    deepestOf (noteLevel deepest node) (partsBelow node ++ pending) =
      deepestOf deepest (node :: pending) := by
  obtain ⟨t, level⟩ := node
  cases t with
  | leaf c =>
    rw [deepestOf]
    rfl
  | join op left right =>
    rw [deepestOf]
    rfl

theorem visits_depth_iff {visited : List (Tree × Nat)} {n : Nat} :
    Visits noteLevel partsBelow 0 [(t, 1)] visited n ↔
      visited = t.nodes .right 1 ∧ n = t.depth := by
  have horder (node : Tree × Nat) : node.1.nodes .right node.2 =
      node :: (partsBelow node).flatMap fun part => part.1.nodes .right part.2 := by
    rw [nodes_eq, partsBelow, List.flatMap_map]
  rw [visits_iff horder deepestOf_visit fun deepest => by rw [deepestOf], List.flatMap_singleton,
    depth]

/-! ## The loop for the conditions -/

/-- The conditions so far, once a node is visited: a leaf has one at the end of them. -/
def noteCondition (found : List Condition) : Tree → List Condition
  | .leaf c => found ++ [c]
  | .join _ _ _ => found

theorem append_conditionsOf_visit (found : List Condition) (node : Tree) (pending : List Tree) :
    noteCondition found node ++ conditionsOf (node.partsFrom .left ++ pending) =
      found ++ conditionsOf (node :: pending) := by
  cases node with
  | leaf c =>
    rw [conditionsOf, noteCondition, List.append_assoc]
    rfl
  | join op left right =>
    rw [conditionsOf]
    rfl

theorem visits_conditions_iff {visited : List Tree} {cs : List Condition} :
    Visits noteCondition (partsFrom .left) [] [t] visited cs ↔
      visited = (t.nodes .left 1).map (·.1) ∧ cs = t.conditions := by
  have horder (node : Tree) : (node.nodes .left 1).map (·.1) =
      node :: (node.partsFrom .left).flatMap fun part => (part.nodes .left 1).map (·.1) := by
    rw [nodes_eq, List.map_cons, List.map_flatMap]
    simp only [map_nodes .left 2 1]
  rw [visits_iff (f := fun found pending => found ++ conditionsOf pending) horder
      append_conditionsOf_visit fun found => by rw [conditionsOf, List.append_nil],
    List.flatMap_singleton, List.nil_append, conditions]

/-! ## Sizes -/

theorem height_le_length_leaves (t : Tree) : t.height ≤ t.leaves.length := by
  induction t with
  | leaf c => exact Nat.le_refl 1
  | join op left right ih₁ ih₂ =>
    -- Both parts have a condition.
    have := left.height_pos
    have := right.height_pos
    rw [height, leaves, List.length_append]
    omega

theorem length_leaves_le (t : Tree) : t.leaves.length ≤ 2 ^ (t.height - 1) := by
  induction t with
  | leaf c => exact Nat.le_refl 1
  | join op left right ih₁ ih₂ =>
    have hpos : 0 < max left.height right.height :=
      Nat.lt_of_lt_of_le left.height_pos (Nat.le_max_left _ _)
    have hpow {part : Tree} (h : part.height ≤ max left.height right.height) :
        2 ^ (part.height - 1) ≤ 2 ^ (max left.height right.height - 1) :=
      Nat.pow_le_pow_right (by decide) (Nat.sub_le_sub_right h 1)
    calc (join op left right).leaves.length = left.leaves.length + right.leaves.length :=
          List.length_append
      _ ≤ 2 ^ (max left.height right.height - 1) + 2 ^ (max left.height right.height - 1) :=
          Nat.add_le_add (ih₁.trans (hpow (Nat.le_max_left _ _)))
            (ih₂.trans (hpow (Nat.le_max_right _ _)))
      _ = 2 ^ max left.height right.height := by
          rw [← Nat.mul_two, ← pow_succ, Nat.sub_add_cancel hpos]
      _ = 2 ^ ((join op left right).height - 1) := by rw [height, Nat.add_sub_cancel]

/-- A single condition has one level and is its only condition; a join has one level more than
    its deeper part, and the conditions of its left part before those of its right part. The
    loops come to the same: both visit every node once, the one for the depth the right part
    first and the one for the conditions the left part, and they end in no other way. So a tree
    has at least as many conditions as levels, and at most as many as leaves fit on its last
    level. -/
theorem depth_and_conditions_of_parts :
    (∀ c, (leaf c).depth = 1 ∧ (leaf c).conditions = [c]) ∧
    (∀ op left right, (join op left right).depth = 1 + max left.depth right.depth ∧
      (join op left right).conditions = left.conditions ++ right.conditions) ∧
    ∀ t : Tree,
      (∀ visited n, Visits noteLevel partsBelow 0 [(t, 1)] visited n ↔
        visited = t.nodes .right 1 ∧ n = t.depth) ∧
      (∀ visited cs, Visits noteCondition (partsFrom .left) [] [t] visited cs ↔
        visited = (t.nodes .left 1).map (·.1) ∧ cs = t.conditions) ∧
      (∀ first level, (t.nodes first level).length = t.size) ∧
      t.depth ≤ t.conditions.length ∧ t.conditions.length ≤ 2 ^ (t.depth - 1) := by
  simp only [depth_eq_height, conditions_eq_leaves]
  refine ⟨fun c => ⟨rfl, rfl⟩, fun op left right => ⟨Nat.add_comm _ _, rfl⟩, fun t => ?_⟩
  refine ⟨fun visited n => ?_, fun visited cs => ?_, fun first level => t.length_nodes first level,
    t.height_le_length_leaves, t.length_leaves_le⟩
  · rw [visits_depth_iff, depth_eq_height]
  · rw [visits_conditions_iff, conditions_eq_leaves]

end Tree

end Criteria

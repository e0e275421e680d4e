import Criteria.Proofs.Tree.Equality
import Criteria.Proofs.Tree.Joining
import Mathlib.Data.List.Induction

/-!
# Joining with precedence

Trees can be joined from the left, or so that `AND` binds tighter than `OR`. Both give the
same tree as long as no `AND` comes behind an `OR`, and different ones otherwise.

* `Tree.climb`: trees joined so that `AND` binds tighter;
* `Tree.climb_eq_joinFrom`: where this is joining from the left;
* `Tree.climb_ne_joinFrom`, `Tree.climb_beq_joinFrom`: where it is not.
-/

namespace Criteria

namespace Tree

open scoped List

variable {sum : Option Tree} {product root : Tree} {more : List (Tree × Connective)}

/-- A product added to a sum, if there is one. -/
def addend (sum : Option Tree) (product : Tree) : Tree :=
  match sum with
  | none => product
  | some sum => .join .or sum product

/-- Further trees joined onto a sum and the product that is its last part, so that `AND`
    binds tighter than `OR`. -/
def climb (sum : Option Tree) (product : Tree) : List (Tree × Connective) → Tree
  | [] => addend sum product
  | (tree, .and) :: more => climb sum (.join .and product tree) more
  | (tree, .or) :: more => climb (some (addend sum product)) tree more

/-! ## No product behind a sum -/

theorem climb_of_forall_or (h : ∀ op ∈ more.map (·.2), op = .or) :
    climb sum product more = joinFrom (addend sum product) more := by
  induction more generalizing sum product with
  | nil => rfl
  | cons entry more ih =>
    obtain ⟨tree, op⟩ := entry
    obtain ⟨rfl, hmore⟩ := List.forall_mem_cons.1 h
    exact ih hmore

/-- As long as no `AND` comes behind an `OR`, precedence makes no difference. -/
theorem climb_eq_joinFrom (h : ¬[.or, .and] <+ more.map (·.2)) :
    climb none root more = joinFrom root more := by
  induction more generalizing root with
  | nil => rfl
  | cons entry more ih =>
    obtain ⟨tree, op⟩ := entry
    cases op with
    | and => exact ih fun hmore => h (hmore.cons _)
    | or =>
      refine climb_of_forall_or fun op hop => ?_
      cases op with
      | or => rfl
      | and =>
        rcases List.mem_cons.1 hop with hop | hop
        · exact hop
        · exact absurd ((List.singleton_sublist.2 hop).cons_cons _) h

/-! ## A product behind a sum -/

theorem climb_concat_or (tree : Tree) :
    climb sum product (more ++ [(tree, .or)]) = .join .or (climb sum product more) tree := by
  fun_induction climb sum product more with
  | case1 => rfl
  | case2 sum product tree more ih | case3 sum product tree more ih => exact ih

/-- With an `OR` among the connectives, or a sum before them, the whole is a sum. -/
theorem exists_climb_eq_or (h : sum.isSome ∨ .or ∈ more.map (·.2)) :
    ∃ left right, climb sum product more = .join .or left right := by
  fun_induction climb sum product more with
  | case1 sum product =>
    obtain ⟨sum, rfl⟩ := Option.isSome_iff_exists.1 (h.resolve_right (by simp))
    exact ⟨sum, product, rfl⟩
  | case2 sum product tree more ih => exact ih (by simpa using h)
  | case3 sum product tree more ih => exact ih (.inl rfl)

/-- Where an `AND` comes behind an `OR`, precedence makes a difference to any relation in
    which the roots and left parts of related trees are equal and related. -/
theorem not_rel_climb_joinFrom {R : Tree → Tree → Prop}
    (hR : ∀ {op op' left right left' right'},
      R (.join op left right) (.join op' left' right') → op = op' ∧ R left left')
    (h : [.or, .and] <+ more.map (·.2)) : ¬R (climb none root more) (joinFrom root more) := by
  -- The last connective is at the root from the left; with precedence, only an `OR` is.
  induction more using List.reverseRecOn with
  | nil => simp at h
  | append_singleton more entry ih =>
    obtain ⟨tree, op⟩ := entry
    rw [joinFrom_concat]
    cases op with
    | and =>
      obtain ⟨left, right, hclimb⟩ :=
        @exists_climb_eq_or none root _ (.inr (h.subset List.mem_cons_self))
      rw [hclimb]
      exact fun hrel => Connective.noConfusion (hR hrel).1
    | or =>
      have hmore : [.or, .and] <+ more.map (·.2) := by
        rw [List.map_append, ← List.reverse_sublist, List.reverse_append] at h
        rw [← List.reverse_sublist]
        rcases List.sublist_cons_iff.1 h with h | ⟨_, heq, -⟩
        · exact h
        · simp at heq
      rw [climb_concat_or]
      exact fun hrel => ih hmore (hR hrel).2

theorem climb_ne_joinFrom (h : [.or, .and] <+ more.map (·.2)) :
    climb none root more ≠ joinFrom root more := by
  refine not_rel_climb_joinFrom (fun heq => ?_) h
  obtain ⟨rfl, rfl, -⟩ := join.inj heq
  exact ⟨rfl, rfl⟩

theorem climb_beq_joinFrom (h : [.or, .and] <+ more.map (·.2)) :
    (climb none root more == joinFrom root more) = false := by
  rw [Bool.eq_false_iff]
  refine not_rel_climb_joinFrom (R := fun t u => (t == u) = true) (fun hbeq => ?_) h
  obtain ⟨hop, hleft, -⟩ := join_beq_join.1 hbeq
  exact ⟨hop, hleft⟩

end Tree

end Criteria

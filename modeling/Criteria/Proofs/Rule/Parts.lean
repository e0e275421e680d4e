import Criteria.Proofs.Rule.Alternation
import Criteria.Proofs.Tree.Depth

/-!
# The parts of a rule string

Nothing of a rule string is lost, doubled or moved in reading it, also where no expression is
written so: its conditions become the leaves, in their order, and each of its connectives joins
as often as it is written. Where more than one tree is left over, the parts are still all there.

* `Tree.joins`: how often a connective joins in a tree;
* `Tree.parts_of_read`: the parts of what is read;
* `Postfix.leftover_of_build`: the number of trees that are left over.
-/

namespace Criteria

/-- How often a connective joins two parts of a tree. -/
def Tree.joins (op : Connective) : Tree → Nat
  | .leaf _ => 0
  | .join op' left right => left.joins op + right.joins op + if op' = op then 1 else 0

namespace Token

variable {tokens : List Token}

/-- A connective is as often among the connectives as among all tokens. -/
theorem count_connectives (op : Connective) (tokens : List Token) :
    (connectives tokens).count op = tokens.count (.connective op) := by
  fun_induction connectives tokens with
  | case1 => rfl
  | case2 op' tokens ih => simp only [List.count_cons, ih, beq_iff_eq, Token.connective.injEq]
  | case3 token tokens hne ih =>
    rw [ih, List.count_cons_of_ne (hne op)]

end Token

namespace Postfix

variable {limits : Limits} {items : List Item} {built : List (Tree × Nat)}

/-- The items of a tree hold each connective as often as it joins. -/
theorem count_connectives_items (op : Connective) (t : Tree) :
    (connectives t.items).count op = t.joins op := by
  induction t with
  | leaf c => rfl
  | join op' left right ih₁ ih₂ =>
    simp only [Tree.items, Tree.joins, connectives_append, connectives, List.count_append,
      List.count_singleton, ih₁, ih₂, beq_iff_eq]

/-- Each connective takes two trees and leaves one, so that the trees that are left over are as
    many as there were trees and conditions, less the connectives. -/
theorem leftover_of_build {roots : Nat} (h : build limits built items = .error (.leftover roots)) :
    roots ≠ 1 ∧ roots + (connectives items).length = built.length + (operands items).length := by
  fun_induction build limits built items with
  | case1 => simp at h
  | case2 built hne =>
    obtain rfl : built.length = roots := by simpa using h
    refine ⟨fun hone => ?_, rfl⟩
    obtain ⟨⟨tree, depth⟩, rfl⟩ := List.length_eq_one_iff.1 hone
    exact hne tree depth rfl
  | case3 built c items ih =>
    obtain ⟨hne, heq⟩ := ih h
    refine ⟨hne, ?_⟩
    rw [connectives, operands, heq, List.length_cons, List.length_cons, Nat.add_right_comm,
      Nat.add_assoc]
  | case4 => simp at h
  | case5 op items right rightDepth left leftDepth built depth _ ih =>
    obtain ⟨hne, heq⟩ := ih h
    refine ⟨hne, ?_⟩
    simp only [connectives, operands, List.length_cons] at heq ⊢
    rw [← Nat.add_assoc, heq]
    exact Nat.add_right_comm _ _ 1
  | case6 => simp at h

end Postfix

namespace Tree

variable {limits : Limits} {s : String} {t : Tree}

/-- In what is read, the conditions are those that the condition tokens of the rule string read
    as, in their order, and each connective joins as often as it is among the tokens. -/
theorem parts_of_read (h : read limits s = .ok t) :
    (Token.texts (Token.split s)).map Condition.read = t.conditions.map .ok ∧
      ∀ op, t.joins op = (Token.split s).count (.connective op) := by
  refine ⟨?_, fun op => ?_⟩
  · rw [conditions_eq_leaves, ← List.forall₂_eq_eq_eq, List.forall₂_map_left_iff,
      List.forall₂_map_right_iff]
    exact forall₂_of_read h
  · obtain ⟨items, hitems, hbuild⟩ := exists_items_of_read h
    obtain rfl : t.items = items := Postfix.items_of_build hbuild
    have hperm : (Postfix.connectives t.items).Perm (Token.connectives (Token.split s)) :=
      Postfix.perm_of_arrange hitems
    rw [← Postfix.count_connectives_items, hperm.count_eq, Token.count_connectives]

theorem parts_of_read_trailing :
    let c (field : String) (n : Nat) : Tree := .leaf ⟨field, .greater, .number (.ofInt n)⟩
    let s := "a > 1 (b > 2 OR c > 3) AND"
    let t := Tree.join .and (c "a" 1) (.join .or (c "b" 2) (c "c" 3))
    read {} s = .ok t ∧
      (Token.texts (Token.split s)).map Condition.read = t.conditions.map .ok ∧
        ∀ op, t.joins op = (Token.split s).count (.connective op) := by
  intro c s t
  have hread : read {} s = .ok t := by decide +kernel
  exact ⟨hread, parts_of_read hread⟩

end Tree

end Criteria

import Criteria.Proofs.Rule.Arrangement
import Mathlib.Control.Monad.Basic

/-!
# Reading expressions

A rule string whose tokens are those of an expression reads as the tree of that
expression, as long as its parentheses and the tree are within the limits, and
does not read otherwise.

* `Tree.read_eq_ok_iff`: when it reads, and as what;
* `Tree.read_of_derives`: the precedence tree of the grammar is the one that is read.
-/

namespace Criteria

namespace Tree

open Postfix

variable {limits : Limits} {s : String} {t u : Tree}

/-- The tree of an expression is the only one that it can read as, and it is read
    exactly within the limits. A single condition is never too deep. -/
theorem read_eq_ok_iff (h : Derives .expression (Token.split s) t) :
    read limits s = .ok u ↔
      u = t ∧ Token.nesting (Token.split s) ≤ limits.nesting ∧
        (t.isLeaf ∨ t.height ≤ limits.depth) := by
  rw [read]
  constructor
  · intro hr
    cases hi : ofTokens limits (Token.split s) with
    | error e => simp [hi] at hr
    | ok items =>
      have hn : Token.nesting (Token.split s) ≤ limits.nesting :=
        deepest_le_of_arrange (Nat.zero_le _) hi
      rw [ofTokens_derives h hn] at hr
      by_cases hd : t.isLeaf ∨ t.height ≤ limits.depth
      · simp only [toTree_items hd] at hr
        exact ⟨(Except.ok.inj hr).symm, hn, hd⟩
      · obtain ⟨hl, hd⟩ := not_or.1 hd
        simp [toTree_items_of_lt hl (Nat.lt_of_not_le hd)] at hr
  · rintro ⟨rfl, hn, hd⟩
    rw [ofTokens_derives h hn]
    exact toTree_items hd

/-- A rule string whose tokens are derived as an expression, with parentheses that
    nest no deeper than allowed, reads as the tree of the derivation if that is no
    deeper than allowed. -/
theorem read_of_derives (limits : Limits) (s : String) (t : Tree)
    (h : Derives .expression (Token.split s) t)
    (hn : Token.nesting (Token.split s) ≤ limits.nesting) (hd : t.depth ≤ limits.depth) :
    read limits s = .ok t :=
  (read_eq_ok_iff h).2 ⟨rfl, hn, .inr (t.depth_eq_height ▸ hd)⟩

theorem read_of_derives_mixed :
    let c (field : String) (n : Nat) : Tree := .leaf ⟨field, .greater, .number (.ofInt n)⟩
    let s := "a > 1 OR b > 2 AND (c > 3 OR d > 4)"
    let t := Tree.join .or (c "a" 1) (.join .and (c "b" 2) (.join .or (c "c" 3) (c "d" 4)))
    Derives .expression (Token.split s) t ∧ Token.nesting (Token.split s) ≤ 1 ∧ t.depth ≤ 4 ∧
      read ⟨1, 4⟩ s = .ok t := by
  intro c s t
  have hs : Token.split s = [.condition "a > 1", .connective .or, .condition "b > 2",
      .connective .and, .opening, .condition "c > 3", .connective .or, .condition "d > 4",
      .closing] := by decide +kernel
  have hc : ∀ i : Fin 4, Condition.read (["a > 1", "b > 2", "c > 3", "d > 4"][i]) =
      .ok ⟨["a", "b", "c", "d"][i], .greater, .number (.ofInt (i.val + 1))⟩ := by decide +kernel
  have hf : ∀ i : Fin 4, Derives .factor [.condition ["a > 1", "b > 2", "c > 3", "d > 4"][i]]
      (.leaf ⟨["a", "b", "c", "d"][i], .greater, .number (.ofInt (i.val + 1))⟩) :=
    fun i => .condition (hc i)
  have hd : Derives .expression (Token.split s) t := by
    rw [hs]
    exact .disjunction (.term (.factor (hf 0))) (.conjunction (.factor (hf 1))
      (.group (.disjunction (.term (.factor (hf 2))) (.factor (hf 3)))))
  have hn : Token.nesting (Token.split s) ≤ 1 := by
    rw [hs]
    decide
  have ht : t.depth ≤ 4 := by
    rw [depth_eq_height]
    decide
  exact ⟨hd, hn, ht, read_of_derives ⟨1, 4⟩ s t hd hn ht⟩

end Tree

end Criteria

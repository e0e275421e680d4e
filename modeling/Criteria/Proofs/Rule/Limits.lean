import Criteria.Proofs.Rule.Alternation

/-!
# Limits only filter

What is read within some limits is read within all wider ones, as the same tree. Within
others it fails for one of two reasons, and the limits decide for which: the parentheses
nest too deep, or else a join is too deep.

* `Postfix.arrange_of_deepest_le`, `Postfix.arrange_of_lt_deepest`: tokens that were arranged
  within some limits, within others;
* `Tree.read_eq_ite`: a rule string that was read within some limits, within others;
* `Tree.read_iff_limits`: the limits decide how a rule string is read.
-/

namespace Criteria

namespace Postfix

variable {limits wide : Limits} {position nesting : Nat} {stack : List Waiting}
  {tokens : List Token} {items : List Item}

/-- Tokens are arranged alike within all limits that they nest no deeper than. -/
theorem arrange_of_deepest_le (h : arrange wide position nesting stack tokens = .ok items)
    (hn : Token.deepest nesting tokens ≤ limits.nesting) :
    arrange limits position nesting stack tokens = .ok items := by
  fun_induction arrange wide position nesting stack tokens generalizing items with
  | case1 => exact h
  | case2 position nesting stack op tokens released stack' hrelease ih =>
    obtain ⟨items, hi, rfl⟩ := map_eq_ok h
    simp only [arrange, hrelease, ih hi hn]
    rfl
  | case3 => simp at h
  | case4 position nesting stack tokens _ ih =>
    have hle : ¬limits.nesting < nesting + 1 :=
      Nat.not_lt.2 (Nat.le_trans (Token.le_deepest _ tokens) hn)
    rw [arrange, if_neg hle]
    exact ih h hn
  | case5 => simp at h
  | case6 position nesting stack tokens released stack' hclose ih =>
    obtain ⟨items, hi, rfl⟩ := map_eq_ok h
    simp only [arrange, hclose, ih hi (Nat.le_trans (Nat.le_max_right _ _) hn)]
    rfl
  | case7 => simp at h
  | case8 position nesting stack text tokens c hread ih =>
    obtain ⟨items, hi, rfl⟩ := map_eq_ok h
    simp only [arrange, hread, ih hi hn]
    rfl

/-- Tokens that nest deeper than allowed, and could be arranged otherwise, fail at the first
    parenthesis beyond the limit. -/
theorem arrange_of_lt_deepest (h : arrange wide position nesting stack tokens = .ok items)
    (hle : nesting ≤ limits.nesting) (hn : limits.nesting < Token.deepest nesting tokens) :
    arrange limits position nesting stack tokens =
      .error (.nestingTooDeep (limits.nesting + 1) limits.nesting) := by
  fun_induction arrange wide position nesting stack tokens generalizing items with
  | case1 => exact absurd hn (Nat.not_lt.2 hle)
  | case2 position nesting stack op tokens released stack' hrelease ih =>
    obtain ⟨items, h, -⟩ := map_eq_ok h
    simp only [arrange, hrelease, ih h hle hn]
    rfl
  | case3 => simp at h
  | case4 position nesting stack tokens _ ih =>
    rw [arrange]
    split
    · -- The limit was reached before.
      obtain rfl : nesting = limits.nesting := by omega
      rfl
    · exact ih h (by omega) hn
  | case5 => simp at h
  | case6 position nesting stack tokens released stack' hclose ih =>
    obtain ⟨items, h, -⟩ := map_eq_ok h
    rw [Token.deepest] at hn
    simp only [arrange, hclose, ih h (by omega) (by omega)]
    rfl
  | case7 => simp at h
  | case8 position nesting stack text tokens c hread ih =>
    obtain ⟨items, h, -⟩ := map_eq_ok h
    simp only [arrange, hread, ih h hle hn]
    rfl

end Postfix

namespace Tree

variable {limits wide : Limits} {s : String} {t : Tree}

/-- The items that a rule string is arranged into are those of the tree that it reads as. -/
theorem ofTokens_of_read (h : read limits s = .ok t) :
    Postfix.ofTokens limits (Token.split s) = .ok t.items := by
  obtain ⟨items, hitems, hbuild⟩ := exists_items_of_read h
  rwa [Postfix.items_of_build hbuild]

/-- How a rule string that reads as a tree is read within other limits. -/
theorem read_eq_ite (h : read wide s = .ok t) (limits : Limits) :
    read limits s =
      if limits.nesting < Token.nesting (Token.split s) then
        .error (.nestingTooDeep (limits.nesting + 1) limits.nesting)
      else if ¬t.isLeaf ∧ limits.depth < t.depth then
        .error (.treeTooDeep (max limits.depth 1 + 1) limits.depth)
      else .ok t := by
  have hitems := ofTokens_of_read h
  rw [read, depth_eq_height]
  split_ifs with hn hd
  · rw [Postfix.ofTokens, Postfix.arrange_of_lt_deepest hitems (Nat.zero_le _) hn]
  · rw [Postfix.ofTokens, Postfix.arrange_of_deepest_le hitems (Nat.le_of_not_lt hn)]
    exact Postfix.toTree_items_of_lt hd.1 hd.2
  · rw [Postfix.ofTokens, Postfix.arrange_of_deepest_le hitems (Nat.le_of_not_lt hn)]
    refine Postfix.toTree_items ?_
    rw [not_and_or, not_not] at hd
    exact hd.imp_right Nat.le_of_not_lt

/-- What is read is no deeper than allowed, where at least a single condition is. -/
theorem depth_le_of_read (h : read limits s = .ok t) : t.depth ≤ max limits.depth 1 := by
  rw [depth_eq_height]
  rcases height_le_of_read h with hleaf | hle
  · cases t with
    | leaf c => exact Nat.le_max_right _ _
    | join => simp [isLeaf] at hleaf
  · exact Nat.le_trans hle (Nat.le_max_left _ _)

/-- What is read within some limits is read within wider ones. What is read within some
    limits is read within others unless its parentheses nest deeper than these allow, which
    is what is reported then, or else unless it is joined and deeper than these allow, which
    is then reported of the first level beyond the limit. Nothing that is read is deeper
    than allowed, but for single conditions. -/
theorem read_iff_limits (limits wide : Limits) (s : String) (t : Tree) :
    (limits.nesting ≤ wide.nesting → limits.depth ≤ wide.depth →
      read limits s = .ok t → read wide s = .ok t) ∧
    (read wide s = .ok t →
      (read limits s = .error (.nestingTooDeep (limits.nesting + 1) limits.nesting) ↔
        limits.nesting < Token.nesting (Token.split s)) ∧
      (read limits s = .error (.treeTooDeep (max limits.depth 1 + 1) limits.depth) ↔
        Token.nesting (Token.split s) ≤ limits.nesting ∧ ¬t.isLeaf ∧ limits.depth < t.depth) ∧
      (read limits s = .ok t ↔
        Token.nesting (Token.split s) ≤ limits.nesting ∧ (t.isLeaf ∨ t.depth ≤ limits.depth))) ∧
    (read limits s = .ok t → t.depth ≤ max limits.depth 1) := by
  refine ⟨fun hn hd h => ?_, fun h => ?_, depth_le_of_read⟩
  · have hnesting : Token.nesting (Token.split s) ≤ limits.nesting :=
      Postfix.deepest_le_of_arrange (Nat.zero_le _) (ofTokens_of_read h)
    have hdepth := height_le_of_read h
    rw [← depth_eq_height] at hdepth
    rw [read_eq_ite h wide, if_neg (by omega), if_neg]
    rintro ⟨hleaf, hlt⟩
    have := hdepth.resolve_left hleaf
    omega
  · have hfits : (t.isLeaf ∨ t.depth ≤ limits.depth) ↔ ¬(¬t.isLeaf ∧ limits.depth < t.depth) := by
      rw [not_and_or, not_not, Nat.not_lt]
    rw [read_eq_ite h limits, hfits, ← Nat.not_lt]
    split_ifs with hn hd
    · exact ⟨iff_of_true rfl hn, iff_of_false (by simp) fun h => h.1 hn,
        iff_of_false (by simp) fun h => h.1 hn⟩
    · exact ⟨iff_of_false (by simp) hn, iff_of_true rfl ⟨hn, hd⟩,
        iff_of_false (by simp) fun h => h.2 hd⟩
    · exact ⟨iff_of_false (by simp) hn, iff_of_false (by simp) fun h => hd h.2,
        iff_of_true rfl ⟨hn, hd⟩⟩

theorem read_iff_limits_group :
    let c (field : String) (n : Nat) : Tree := .leaf ⟨field, .greater, .number (.ofInt n)⟩
    let s := "(a > 1 OR b > 2) AND c > 3"
    let t := Tree.join .and (.join .or (c "a" 1) (c "b" 2)) (c "c" 3)
    read ⟨1, 3⟩ s = .ok t ∧ read ⟨2, 3⟩ s = .ok t ∧
      read ⟨0, 3⟩ s = .error (.nestingTooDeep 1 0) ∧ read ⟨1, 2⟩ s = .error (.treeTooDeep 3 2) ∧
      read ⟨1, 0⟩ s = .error (.treeTooDeep 2 0) ∧ t.depth ≤ 3 := by
  intro c s t
  have hread : read ⟨1, 3⟩ s = .ok t := by decide +kernel
  have hnesting : Token.nesting (Token.split s) = 1 := by decide +kernel
  have hdepth : t.depth = 3 := by
    rw [depth_eq_height]
    rfl
  have other (limits : Limits) := (read_iff_limits limits ⟨1, 3⟩ s t).2.1 hread
  refine ⟨hread, (read_iff_limits ⟨1, 3⟩ ⟨2, 3⟩ s t).1 (by decide) (by decide) hread,
    (other ⟨0, 3⟩).1.2 ?_, (other ⟨1, 2⟩).2.1.2 ?_, (other ⟨1, 0⟩).2.1.2 ?_,
    (read_iff_limits ⟨1, 3⟩ ⟨2, 3⟩ s t).2.2 hread⟩
  · rw [hnesting]
    decide
  · rw [hnesting, hdepth]
    decide
  · rw [hnesting, hdepth]
    decide

end Tree

end Criteria

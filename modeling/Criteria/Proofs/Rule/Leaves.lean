import Criteria.Proofs.Rule.Arrangement
import Mathlib.Data.List.Forall2

/-!
# The leaves of what is read

Whatever a rule string reads as, also one that no grammar derives: its leaves are the
conditions of the string, in their order, and it is no deeper than allowed.

* `Postfix.forall₂_of_arrange`: no condition is lost or moved in postfix order;
* `Postfix.leaves_of_build`: nor in building a tree;
* `Tree.forall₂_of_read`, `Tree.height_le_of_read`: the same of reading a rule string.
-/

namespace Criteria

/-- The texts of the conditions among tokens. -/
def Token.texts : List Token → List String
  | [] => []
  | .condition text :: tokens => text :: texts tokens
  | _ :: tokens => texts tokens

theorem Token.mem_of_mem_texts {tokens : List Token} {text : String} (h : text ∈ texts tokens) :
    .condition text ∈ tokens := by
  fun_induction texts tokens with
  | case1 => simp at h
  | case2 first tokens ih =>
    rcases List.mem_cons.1 h with rfl | h
    · exact List.mem_cons_self
    · exact List.mem_cons_of_mem _ (ih h)
  | case3 token tokens _ ih => exact List.mem_cons_of_mem _ (ih h)

theorem Token.mem_texts_of_mem {tokens : List Token} {text : String}
    (h : .condition text ∈ tokens) : text ∈ texts tokens := by
  fun_induction texts tokens with
  | case1 => simp at h
  | case2 first tokens ih =>
    rcases List.mem_cons.1 h with heq | h
    · exact List.mem_cons.2 (.inl (Token.condition.inj heq))
    · exact List.mem_cons_of_mem _ (ih h)
  | case3 token tokens hne ih =>
    rcases List.mem_cons.1 h with rfl | h
    · exact absurd rfl (hne text)
    · exact ih h

/-- In related lists, every element of the second is related to one of the first. -/
theorem exists_rel_of_mem {α β : Type} {R : α → β → Prop} {as : List α} {bs : List β}
    (h : List.Forall₂ R as bs) {b : β} (hb : b ∈ bs) : ∃ a ∈ as, R a b := by
  induction h with
  | nil => simp at hb
  | cons hr _ ih =>
    rcases List.mem_cons.1 hb with rfl | hb
    · exact ⟨_, List.mem_cons_self, hr⟩
    · obtain ⟨a, ha, hr⟩ := ih hb
      exact ⟨a, List.mem_cons_of_mem _ ha, hr⟩

namespace Postfix

/-- The conditions among items in postfix order. -/
def operands : List Item → List Condition
  | [] => []
  | .operand c :: items => c :: operands items
  | .connective _ :: items => operands items

theorem operands_append (items more : List Item) :
    operands (items ++ more) = operands items ++ operands more := by
  fun_induction operands items with
  | case1 => rfl
  | case2 c items ih => rw [List.cons_append, operands, ih, List.cons_append]
  | case3 op items ih => rw [List.cons_append, operands, ih]

theorem operands_map (ops : List Connective) : operands (ops.map .connective) = [] := by
  induction ops with
  | nil => rfl
  | cons op ops ih => exact ih

/-! ## Arranging -/

/-- The conditions in postfix order are those of the tokens, in their order. -/
theorem forall₂_of_arrange {limits : Limits} {position nesting : Nat} {stack : List Waiting}
    {tokens : List Token} {items : List Item}
    (h : arrange limits position nesting stack tokens = .ok items) :
    List.Forall₂ (fun text c => Condition.read text = .ok c) (Token.texts tokens)
      (operands items) := by
  fun_induction arrange limits position nesting stack tokens generalizing items with
  | case1 position nesting stack =>
    obtain ⟨ops, -, rfl⟩ := exists_of_drain h
    rw [operands_map]
    exact .nil
  | case2 position nesting stack op tokens released stack' hrel ih =>
    obtain ⟨items, hi, rfl⟩ := map_eq_ok h
    obtain ⟨ops, -, hreleased⟩ := exists_of_release op stack
    rw [hrel] at hreleased
    rw [operands_append, show released = ops.map .connective from hreleased, operands_map]
    exact ih hi
  | case3 => simp at h
  | case4 position nesting stack tokens hlt ih => exact ih h
  | case5 => simp at h
  | case6 position nesting stack tokens released stack' hclose ih =>
    obtain ⟨items, hi, rfl⟩ := map_eq_ok h
    obtain ⟨ops, -, rfl⟩ := exists_of_close? hclose
    rw [operands_append, operands_map]
    exact ih hi
  | case7 => simp at h
  | case8 position nesting stack text tokens c hc ih =>
    obtain ⟨items, hi, rfl⟩ := map_eq_ok h
    exact .cons hc (ih hi)

/-! ## Building -/

/-- The leaves of what is built are those of the trees before, from the first to the
    last, and then the conditions of the items. -/
theorem leaves_of_build {limits : Limits} {built : List (Tree × Nat)} {items : List Item}
    {t : Tree} (h : build limits built items = .ok t) :
    t.leaves = built.reverse.flatMap (·.1.leaves) ++ operands items := by
  fun_induction build limits built items with
  | case1 tree depth => simp [Except.ok.inj h, operands]
  | case2 => simp at h
  | case3 built c items ih =>
    rw [ih h, operands]
    simp [Tree.leaves]
  | case4 => simp at h
  | case5 op items right rightDepth left leftDepth built depth hle ih =>
    rw [ih h, operands]
    simp [Tree.leaves]
  | case6 => simp at h

/-- The depth that is held beside a tree is its own, and is within the limit unless
    the tree is a single condition. -/
def Held (limits : Limits) (entry : Tree × Nat) : Prop :=
  entry.2 = entry.1.height ∧ (entry.1.isLeaf ∨ entry.1.height ≤ limits.depth)

theorem height_le_of_build {limits : Limits} {built : List (Tree × Nat)} {items : List Item}
    {t : Tree} (hb : ∀ entry ∈ built, Held limits entry) (h : build limits built items = .ok t) :
    t.isLeaf ∨ t.height ≤ limits.depth := by
  fun_induction build limits built items with
  | case1 tree depth =>
    rw [← Except.ok.inj h]
    exact (hb (tree, depth) (by simp)).2
  | case2 => simp at h
  | case3 built c items ih => exact ih (List.forall_mem_cons.2 ⟨⟨rfl, .inl rfl⟩, hb⟩) h
  | case4 => simp at h
  | case5 op items right rightDepth left leftDepth built depth hle ih =>
    simp only [List.forall_mem_cons] at hb
    obtain ⟨⟨hright, -⟩, ⟨hleft, -⟩, hb⟩ := hb
    have hdepth : depth = (Tree.join op left right).height := by
      rw [Tree.height, ← hleft, ← hright]
    exact ih (List.forall_mem_cons.2 ⟨⟨hdepth, .inr (hdepth ▸ Nat.le_of_not_lt hle)⟩, hb⟩) h
  | case6 => simp at h

end Postfix

namespace Tree

variable {limits : Limits} {s : String} {t : Tree}

theorem exists_items_of_read (h : read limits s = .ok t) :
    ∃ items, Postfix.ofTokens limits (Token.split s) = .ok items ∧
      Postfix.toTree limits items = .ok t := by
  rw [read] at h
  cases hi : Postfix.ofTokens limits (Token.split s) with
  | error e => simp [hi] at h
  | ok items => exact ⟨items, rfl, by simpa [hi] using h⟩

/-- The leaves of what is read are the conditions of the rule string, in their order. -/
theorem forall₂_of_read (h : read limits s = .ok t) :
    List.Forall₂ (fun text c => Condition.read text = .ok c) (Token.texts (Token.split s))
      t.leaves := by
  obtain ⟨items, hi, ht⟩ := exists_items_of_read h
  rw [Postfix.leaves_of_build ht]
  exact Postfix.forall₂_of_arrange hi

/-- Every condition of what is read can be read by itself. -/
theorem exists_read_of_mem_split (h : read limits s = .ok t) {text : String}
    (htext : .condition text ∈ Token.split s) : ∃ c, Condition.read text = .ok c := by
  obtain ⟨c, -, hc⟩ := exists_rel_of_mem (forall₂_of_read h).flip (Token.mem_texts_of_mem htext)
  exact ⟨c, hc⟩

/-- What is read is a single condition or no deeper than allowed. -/
theorem height_le_of_read (h : read limits s = .ok t) : t.isLeaf ∨ t.height ≤ limits.depth := by
  obtain ⟨items, -, ht⟩ := exists_items_of_read h
  exact Postfix.height_le_of_build (by simp) ht

end Tree

end Criteria

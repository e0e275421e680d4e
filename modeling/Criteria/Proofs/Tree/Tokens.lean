import Criteria.Proofs.Condition.Text
import Criteria.Proofs.Rule.Grammar
import Criteria.Proofs.Tree.Depth
import Criteria.Tree.Edit

/-!
# Tokens of trees

The text of a tree is split into the tokens that it is made of: one for each leaf and
connective, and two for each part that is itself joined. These tokens are derived by
the grammar, and what they stand for is a tree of the same shape.

* `split_text`: the tokens of the text of a tree;
* `derives_tokens`: their derivation;
* `nesting_tokens`: how deep their parentheses nest.
-/

namespace Criteria

namespace Tree

open Token

/-- The tokens of a part of a joined tree: in parentheses if it is itself joined. -/
def encloseTokens (part : Tree) (tokens : List Token) : List Token :=
  if part.isLeaf then tokens else .opening :: (tokens ++ [.closing])

/-- The tokens that the text of a tree is made of. -/
def tokens : Tree → List Token
  | .leaf c => [.condition c.text]
  | .join op left right =>
    encloseTokens left left.tokens ++ .connective op :: encloseTokens right right.tokens

/-! ## Splitting -/

variable {fragment rest : List Char} {more : List Token}

theorem splitAfter_enclose {part : Tree} (hf : ∀ c ∈ fragment, Text.isBlank c)
    (hr : Ends rest more)
    (h : ∀ {fragment rest more}, (∀ c ∈ fragment, Text.isBlank c) → Ends rest more →
      splitAfter fragment (part.text.toList ++ rest) = part.tokens ++ more) :
    splitAfter fragment ((enclose part part.text).toList ++ rest) =
      encloseTokens part part.tokens ++ more := by
  rw [enclose, encloseTokens]
  split
  · exact h hf hr
  · have hopen : "(".toList = ['('] := rfl
    have hclose : ")".toList = [')'] := rfl
    have hrest : splitAfter [] rest = more := by
      rw [hr.splitAfter, withFragment_of_isBlank (by simp)]
    simp only [String.toList_append, hopen, hclose, List.cons_append, List.nil_append,
      List.append_assoc, splitAfter]
    rw [withFragment_of_isBlank hf, h (by simp) (Ends.closing rest), hrest]

/-- The text of a tree with plain conditions is split into its tokens. -/
theorem splitAfter_text {t : Tree} (ht : ∀ c ∈ t.leaves, c.IsPlain)
    (hf : ∀ c ∈ fragment, Text.isBlank c) (hr : Ends rest more) :
    splitAfter fragment (t.text.toList ++ rest) = t.tokens ++ more := by
  induction t generalizing fragment rest more with
  | leaf c =>
    have hc : c.IsPlain := ht c (by simp [leaves])
    have htrim : Text.trim (c.text.toList.reverse ++ fragment).reverse = c.text.toList := by
      rw [List.reverse_append, List.reverse_reverse,
        Text.trim_append_of_forall fun c hc => hf c (List.mem_reverse.1 hc), Condition.trim_text hc]
    have hne : c.text.toList ≠ [] := by simp [Condition.toList_text]
    rw [text, splitAfter_append ((Condition.solid_text hc).undivided hr.stops), hr.splitAfter,
      withFragment, htrim]
    split
    · exact absurd ‹_› hne
    · rw [String.ofList_toList]
      rfl
  | join op left right ih₁ ih₂ =>
    have hleft := fun c hc => ht c (List.mem_append_left _ hc)
    have hright := fun c hc => ht c (List.mem_append_right _ hc)
    have hblank : " ".toList = [' '] := rfl
    have hspace : ∀ c ∈ [' '], Text.isBlank c := List.forall_mem_singleton.2 (by decide)
    simp only [text, String.toList_append, hblank, List.append_assoc, List.cons_append,
      List.nil_append]
    rw [splitAfter_enclose hf (Ends.connective op _) (ih₁ hleft),
      splitAfter_enclose hspace hr (ih₂ hright), tokens, List.append_assoc, List.cons_append]

theorem split_text {t : Tree} (ht : ∀ c ∈ t.leaves, c.IsPlain) : split t.text = t.tokens := by
  have : splitAfter [] (t.text.toList ++ []) = t.tokens ++ [] :=
    splitAfter_text ht (by simp) Ends.nil
  rwa [List.append_nil, List.append_nil] at this

/-! ## Deriving -/

theorem derives_encloseTokens {part : Tree} {f : Condition → Condition}
    (h : Derives .expression part.tokens (part.mapLeaves f))
    (hl : ∀ c ∈ part.leaves, Condition.read c.text = .ok (f c)) :
    Derives .factor (encloseTokens part part.tokens) (part.mapLeaves f) := by
  cases part with
  | leaf c => exact .condition (hl c (by simp [leaves]))
  | join op left right => exact .group h

/-- The tokens of a tree are derived as an expression, if all its leaves are read. -/
theorem derives_tokens {t : Tree} {f : Condition → Condition}
    (h : ∀ c ∈ t.leaves, Condition.read c.text = .ok (f c)) :
    Derives .expression t.tokens (t.mapLeaves f) := by
  induction t with
  | leaf c => exact .term (.factor (.condition (h c (by simp [leaves]))))
  | join op left right ih₁ ih₂ =>
    have hleft := fun c hc => h c (List.mem_append_left _ hc)
    have hright := fun c hc => h c (List.mem_append_right _ hc)
    have hl := derives_encloseTokens (ih₁ hleft) hleft
    have hr := derives_encloseTokens (ih₂ hright) hright
    cases op with
    | and => exact .term (.conjunction (.factor hl) hr)
    | or => exact .disjunction (.term (.factor hl)) (.factor hr)

/-! ## Nesting -/

theorem deepest_encloseTokens {part : Tree} (opened : Nat) (rest : List Token)
    (h : ∀ opened rest, deepest opened (part.tokens ++ rest) =
      max (opened + (part.height - 2)) (deepest opened rest)) :
    deepest opened (encloseTokens part part.tokens ++ rest) =
      max (opened + (part.height - 1)) (deepest opened rest) := by
  have hle := le_deepest opened rest
  cases part with
  | leaf c => exact (h opened rest).trans (by simp [height])
  | join op left right =>
    have := left.height_pos
    have h := h (opened + 1) (.closing :: rest)
    simp only [encloseTokens, isLeaf, Bool.false_eq_true, if_false, List.cons_append,
      List.append_assoc, List.nil_append, deepest, height, Nat.add_sub_cancel] at h ⊢
    omega

theorem deepest_tokens (t : Tree) (opened : Nat) (rest : List Token) :
    deepest opened (t.tokens ++ rest) =
      max (opened + (t.height - 2)) (deepest opened rest) := by
  induction t generalizing opened rest with
  | leaf c =>
    have := le_deepest opened rest
    simp only [tokens, List.cons_append, List.nil_append, deepest, height]
    omega
  | join op left right ih₁ ih₂ =>
    have := left.height_pos
    have := right.height_pos
    simp only [tokens, List.append_assoc, List.cons_append]
    rw [deepest_encloseTokens opened _ ih₁, deepest, deepest_encloseTokens opened _ ih₂, height]
    omega

/-- Every level of a tree but the last two needs a pair of parentheses. -/
theorem nesting_tokens (t : Tree) : nesting t.tokens = t.height - 2 := by
  have := deepest_tokens t 0 []
  rwa [List.append_nil, deepest, Nat.max_zero, Nat.zero_add] at this

end Tree

end Criteria

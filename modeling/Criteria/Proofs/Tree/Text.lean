import Criteria.Proofs.Rule.Leaves
import Criteria.Proofs.Rule.Reading
import Criteria.Proofs.Tree.Equality
import Criteria.Proofs.Tree.Tokens

/-!
# Texts of trees read back

The text of a tree reads as an equal tree if and only if all its conditions are
legible and it is within the limits: two levels need no parentheses, and each further
one nests a pair of them.

* `plain_of_read`: the conditions of what is read are plain and finite;
* `legible_of_read_text`, `read_text_of_legible`: what is needed to read back, and that it
  is enough;
* `read_text_iff`: when the text of a tree reads as the tree.
-/

namespace Criteria

/-- What a condition is read as from its text; the condition itself if it is not read. -/
def Condition.reread (c : Condition) : Condition :=
  match read c.text with
  | .ok d => d
  | .error _ => c

theorem Condition.reread_of_read {c d : Condition} (h : read c.text = .ok d) :
    read c.text = .ok c.reread := by
  rw [reread, h]

namespace Token

theorem texts_append (tokens more : List Token) :
    texts (tokens ++ more) = texts tokens ++ texts more := by
  fun_induction texts tokens with
  | case1 => rfl
  | case2 text tokens ih => rw [List.cons_append, texts, ih, List.cons_append]
  | case3 token tokens h ih => rw [List.cons_append, texts, ih]; exact h

end Token

namespace Tree

variable {limits : Limits} {s : String} {t u : Tree}

/-! ## Equal trees -/

/-- A tree is equal to itself with other leaves if each of these is equal to the leaf
    that it stands for. -/
theorem mapLeaves_beq {f : Condition → Condition} :
    (t.mapLeaves f == t) = true ↔ ∀ c ∈ t.leaves, (f c == c) = true := by
  change equal (t.mapLeaves f) t = true ↔ _
  induction t with
  | leaf c => simp [mapLeaves, equal, leaves]
  | join op left right ih₁ ih₂ =>
    simp only [mapLeaves, equal, Bool.and_eq_true, ih₁, ih₂, leaves, List.forall_mem_append,
      beq_self_eq_true, true_and]

/-- A condition that equals a plain one is plain. -/
theorem isPlain_of_beq {c d : Condition} (hd : d.IsPlain) (h : (d == c) = true) : c.IsPlain := by
  obtain ⟨hfield, -, hvalue⟩ := Condition.beq_iff.1 h
  refine ⟨hfield ▸ hd.field, fun s hs => ?_⟩
  rw [hs] at hvalue ⊢
  rcases Value.beq_iff.1 hvalue with ⟨x, y, -, hy, -⟩ | ⟨s', hds, hs'⟩
  · simp at hy
  · obtain rfl := Value.text.inj hs'
    exact hds ▸ hd.value s hds

/-! ## What is read -/

/-- The conditions of what is read are plain, and their numbers are finite. -/
theorem plain_of_read (h : read limits s = .ok t) :
    ∀ c ∈ t.leaves, c.IsPlain ∧ c.value.isFinite := by
  intro c hc
  obtain ⟨text, htext, hread⟩ := exists_rel_of_mem (forall₂_of_read h) hc
  exact Condition.of_read (Token.solid_of_mem_split (Token.mem_of_mem_texts htext)) hread

/-! ## Reading back -/

theorem texts_tokens (t : Tree) : Token.texts t.tokens = t.leaves.map Condition.text := by
  have enclose {part : Tree} (h : Token.texts part.tokens = part.leaves.map Condition.text) :
      Token.texts (encloseTokens part part.tokens) = part.leaves.map Condition.text := by
    rw [encloseTokens]
    split
    · exact h
    · rw [Token.texts, Token.texts_append, h]
      · simp [Token.texts]
      · simp
  induction t with
  | leaf c => rfl
  | join op left right ih₁ ih₂ =>
    rw [tokens, Token.texts_append, Token.texts, enclose ih₁, enclose ih₂, leaves,
      List.map_append]
    simp

/-- Where its conditions are read, the text of a tree reads as the tree of what they are
    read as, if that is within the limits. -/
theorem read_text_eq_ok_iff (ht : ∀ c ∈ t.leaves, c.IsPlain)
    (hr : ∀ c ∈ t.leaves, Condition.read c.text = .ok c.reread) :
    read limits t.text = .ok u ↔
      u = t.mapLeaves Condition.reread ∧ t.height ≤ limits.nesting + 2 ∧
        (t.isLeaf ∨ t.height ≤ limits.depth) := by
  have hsplit := split_text ht
  have hderives : Derives .expression (Token.split t.text) (t.mapLeaves Condition.reread) :=
    hsplit ▸ derives_tokens hr
  rw [read_eq_ok_iff hderives, hsplit, nesting_tokens, height_mapLeaves, isLeaf_mapLeaves,
    Nat.sub_le_iff_le_add]

/-- Where the text of a tree reads as an equal tree, every condition is legible, and the
    tree is within the limits. -/
theorem legible_of_read_text (hread : read limits t.text = .ok u) (heq : (u == t) = true) :
    (∀ c ∈ t.leaves, c.Legible) ∧ t.height ≤ limits.nesting + 2 ∧
      (t.isLeaf ∨ t.height ≤ limits.depth) := by
  -- The leaves are plain because they equal leaves that have been read.
  have hplain : ∀ c ∈ t.leaves, c.IsPlain := by
    intro c hc
    obtain ⟨d, hd, hdc⟩ := exists_rel_of_mem (beq_iff_rel.1 heq).forall₂_leaves hc
    exact isPlain_of_beq (plain_of_read hread d hd).1 hdc
  have hreread : ∀ c ∈ t.leaves, Condition.read c.text = .ok c.reread := by
    intro c hc
    have hall := forall₂_of_read hread
    rw [split_text hplain, texts_tokens, List.forall₂_map_left_iff] at hall
    have hall : List.Forall₂ (fun d c => Condition.read (Condition.text c) = .ok d) u.leaves
      t.leaves := .flip hall
    obtain ⟨d, -, hd⟩ := exists_rel_of_mem hall hc
    exact Condition.reread_of_read hd
  obtain ⟨rfl, hn, hd⟩ := (read_text_eq_ok_iff hplain hreread).1 hread
  refine ⟨fun c hc => ?_, hn, hd⟩
  exact Condition.legible_of_read_text (hplain c hc) (hreread c hc) (mapLeaves_beq.1 heq c hc)

/-- The text of a tree within the limits reads as an equal tree if every condition is
    legible. -/
theorem read_text_of_legible (hlegible : ∀ c ∈ t.leaves, c.Legible)
    (hn : t.height ≤ limits.nesting + 2) (hd : t.isLeaf ∨ t.height ≤ limits.depth) :
    ∃ u, read limits t.text = .ok u ∧ (u == t) = true := by
  have hplain : ∀ c ∈ t.leaves, c.IsPlain := fun c hc => (hlegible c hc).isPlain
  have hback : ∀ c ∈ t.leaves, Condition.read c.text = .ok c.reread ∧ (c.reread == c) = true := by
    intro c hc
    obtain ⟨d, hd, hdc⟩ := Condition.read_text_of_legible (hlegible c hc)
    have hreread := Condition.reread_of_read hd
    rw [hd, Except.ok.injEq] at hreread
    exact ⟨hreread ▸ hd, hreread ▸ hdc⟩
  have hread := (read_text_eq_ok_iff hplain fun c hc => (hback c hc).1).2 ⟨rfl, hn, hd⟩
  exact ⟨_, hread, mapLeaves_beq.2 fun c hc => (hback c hc).2⟩

/-- The text of a tree reads as an equal tree if and only if every condition is legible,
    the parentheses nest no deeper than allowed, and the tree is a single condition or no
    deeper than allowed. -/
theorem read_text_iff (limits : Limits) (t : Tree) :
    (∃ u, read limits t.text = .ok u ∧ (u == t) = true) ↔
      (∀ c ∈ t.leaves, c.Legible) ∧ t.depth ≤ limits.nesting + 2 ∧
        (t.isLeaf ∨ t.depth ≤ limits.depth) := by
  rw [depth_eq_height]
  constructor
  · rintro ⟨u, hread, heq⟩
    exact legible_of_read_text hread heq
  · rintro ⟨hlegible, hn, hd⟩
    exact read_text_of_legible hlegible hn hd

end Tree

end Criteria

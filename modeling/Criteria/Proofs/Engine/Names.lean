import Criteria.Proofs.Engine.Rules
import Criteria.Proofs.Tree.Equality

/-!
# Names of stored rules

A rule that was created and never edited is named by the rule string that its tree was
read from. After an edit, and from the beginning if it was joined from others, it is
named by the text of its tree, which need not read as the tree: a text may read as a
number or hold what divides a rule string, and the parentheses may nest too deep. The tree is
meant with which the rule was saved, and that is the one in the store if it is in memory or
the values in it are short.

* `StoredRule.ReadsBack`: the name of a rule is read as its tree;
* `Engine.readsBack_of_reaches`: which rules read back after any commands;
* `Engine.not_forall_readsBack`: not all of them do.
-/

namespace Criteria

/-! ## Reading names -/

/-- Whether a value is a number. -/
def Value.isNumber : Value → Bool
  | .number _ => true
  | .text _ => false

/-- The numbers of a tree are written with digits alone. -/
def Tree.HasPlainNumbers (t : Tree) : Prop := ∀ c ∈ t.leaves, c.value.isNumber → c.value.Legible

/-- The texts in a tree have no quotes, parentheses and connectives, and do not read as
    numbers. -/
def Tree.HasLegibleTexts (t : Tree) : Prop := ∀ c ∈ t.leaves, ¬c.value.isNumber → c.value.Legible

instance (t : Tree) : Decidable t.HasPlainNumbers := by unfold Tree.HasPlainNumbers; infer_instance

instance (t : Tree) : Decidable t.HasLegibleTexts := by unfold Tree.HasLegibleTexts; infer_instance

/-- The name of a rule is read as a tree that equals the one stored. -/
def StoredRule.ReadsBack (limits : Limits) (rule : StoredRule) : Prop :=
  ∃ tree, Tree.read limits rule.name = .ok tree ∧ (tree == rule.tree) = true

instance (limits : Limits) (rule : StoredRule) : Decidable (rule.ReadsBack limits) :=
  match h : Tree.read limits rule.name with
  | .ok tree => decidable_of_iff ((tree == rule.tree) = true) (by simp [StoredRule.ReadsBack, h])
  | .error e => isFalse (by simp [StoredRule.ReadsBack, h])

namespace Engine

variable {e e' : Engine} {rule : StoredRule}

/-- A sound tree has legible conditions if it has legible values. -/
theorem legible_iff_of_sound (h : rule.Sound e) :
    (∀ c ∈ rule.tree.leaves, c.Legible) ↔
      rule.tree.HasPlainNumbers ∧ rule.tree.HasLegibleTexts := by
  constructor
  · intro hall
    exact ⟨fun c hc _ => (hall c hc).value, fun c hc _ => (hall c hc).value⟩
  · rintro ⟨hnumbers, htexts⟩ c hc
    refine ⟨h.tree.field c hc, ?_⟩
    by_cases hv : c.value.isNumber
    · exact hnumbers c hc hv
    · exact htexts c hc hv

/-- A rule that is named by the text of its tree reads back just if its values are legible
    and its parentheses nest no deeper than allowed. -/
theorem readsBack_iff_of_name (h : rule.Sound e) (hn : rule.name = rule.tree.text) :
    rule.ReadsBack e.settings.limits ↔
      (rule.tree.HasPlainNumbers ∧ rule.tree.HasLegibleTexts) ∧
        rule.tree.depth ≤ e.settings.limits.nesting + 2 := by
  have hdepth := h.tree.depth
  rw [StoredRule.ReadsBack, hn, ← legible_iff_of_sound h]
  rw [Tree.depth_eq_height] at hdepth ⊢
  constructor
  · rintro ⟨tree, hread, heq⟩
    obtain ⟨hlegible, hnesting, -⟩ := Tree.legible_of_read_text hread heq
    exact ⟨hlegible, hnesting⟩
  · rintro ⟨hlegible, hnesting⟩
    exact Tree.read_text_of_legible hlegible hnesting (.inr hdepth)

/-- A sound rule whose name is read as exactly its tree reads back. -/
theorem readsBack_of_parse (h : rule.Sound e) (hp : e.parse rule.name = .ok rule.tree) :
    rule.ReadsBack e.settings.limits :=
  ⟨rule.tree, read_of_parse hp, Tree.beq_self h.tree.value⟩

/-- Whatever an engine over an empty store is told, a stored rule is what the store gives back
    of a rule whose name is read as exactly its tree or is the text of the tree: of itself, if it
    is in memory or that rule has short values. If the numbers are written with digits alone, the
    texts are legible and the parentheses nest no deeper than allowed, that rule reads back; and
    the text of a tree reads back only if the latter two hold. -/
theorem readsBack_of_reaches (hb : e.Built) (he : e.list = .ok []) {events : List Event}
    (hr : e.Reaches events e') (hs : e'.Stores rule) :
    ∃ saved : StoredRule, e.store.restored saved = rule ∧
      ((∃ m, e.store = .memory m) ∨ saved.tree.HasShortValues → saved = rule) ∧
      (Tree.read e.settings.limits saved.name = .ok saved.tree ∨ saved.name = saved.tree.text) ∧
      (saved.tree.HasPlainNumbers → saved.tree.HasLegibleTexts →
        saved.tree.depth ≤ e.settings.limits.nesting + 2 → saved.ReadsBack e.settings.limits) ∧
      (saved.name = saved.tree.text → saved.ReadsBack e.settings.limits →
        saved.tree.HasLegibleTexts ∧ saved.tree.depth ≤ e.settings.limits.nesting + 2) := by
  obtain ⟨saved, hsound, hrestored⟩ := isRestored_of_stores hb he hr hs
  refine ⟨saved, hrestored, fun h => (Store.restored_eq_self h).symm.trans hrestored,
    hsound.name.imp_left read_of_parse, fun hnumbers htexts hdepth => ?_, fun hn hback => ?_⟩
  · rcases hsound.name with hp | hn
    · exact readsBack_of_parse hsound hp
    · exact (readsBack_iff_of_name hsound hn).2 ⟨⟨hnumbers, htexts⟩, hdepth⟩
  · obtain ⟨⟨-, htexts⟩, hdepth⟩ := (readsBack_iff_of_name hsound hn).1 hback
    exact ⟨htexts, hdepth⟩

theorem readsBack_of_reaches_joined :
    (standard.Built ∧ standard.list = .ok [] ∧
      standard.Reaches (edits.take 2) (standard.run (edits.take 2)) ∧
      (standard.run (edits.take 2)).Stores joined) ∧
    (joined.tree.HasPlainNumbers ∧ joined.tree.HasLegibleTexts ∧ joined.tree.depth ≤ 34) ∧
      joined.ReadsBack standard.settings.limits := by
  have hreaches := reaches_run standard (edits.take 2)
  have hnumbers : joined.tree.HasPlainNumbers := by decide +kernel
  have htexts : joined.tree.HasLegibleTexts := by decide +kernel
  have hdepth : joined.tree.depth ≤ 34 := by decide +kernel
  obtain ⟨saved, -, hsaved, -, hback, -⟩ :=
    readsBack_of_reaches built_standard list_standard hreaches stores_joined
  obtain rfl := hsaved (.inl ⟨_, rfl⟩)
  exact ⟨⟨built_standard, list_standard, hreaches, stores_joined⟩, ⟨hnumbers, htexts, hdepth⟩,
    hback hnumbers htexts hdepth⟩

/-- A text that reads as a number is read back as that number. -/
theorem not_forall_readsBack :
    ¬∀ (e : Engine) (events : List Event) (rule : StoredRule), e.Built → e.list = .ok [] →
      (e.run events).Stores rule → rule.ReadsBack e.settings.limits := by
  intro h
  have hback := h standard edits remaining built_standard list_standard stores_remaining
  exact absurd hback (by decide +kernel)

end Engine

end Criteria

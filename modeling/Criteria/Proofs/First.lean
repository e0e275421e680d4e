/-!
# The first that fails

Of the items in a list some pass, and others fail, each for a reason. What is reported is the
reason of the first that fails.

* `First`: the reason of the first that fails;
* `first_cons`, `first_append`: where it is found;
* `First.not_forall`, `First.unique`: there is none if all items pass, and at most one.
-/

namespace Criteria

variable {α β : Type} {Passes : α → Prop} {Fails : α → β → Prop} {item : α} {items more : List α}
  {reason reason' : β}

/-- The items pass up to the first one that fails, and this is its reason. -/
def First (Passes : α → Prop) (Fails : α → β → Prop) (items : List α) (reason : β) : Prop :=
  ∃ before item after, items = before ++ item :: after ∧ (∀ b ∈ before, Passes b) ∧
    Fails item reason

theorem not_first_nil : ¬First Passes Fails [] reason := by
  rintro ⟨before, item, after, h, -⟩
  simp at h

theorem first_cons :
    First Passes Fails (item :: items) reason ↔
      Fails item reason ∨ Passes item ∧ First Passes Fails items reason := by
  constructor
  · rintro ⟨before, found, after, h, hbefore, hfound⟩
    cases before with
    | nil =>
      obtain ⟨rfl, -⟩ := List.cons.inj h
      exact .inl hfound
    | cons first before =>
      obtain ⟨rfl, rfl⟩ := List.cons.inj h
      obtain ⟨hfirst, hbefore⟩ := List.forall_mem_cons.1 hbefore
      exact .inr ⟨hfirst, before, found, after, rfl, hbefore, hfound⟩
  · rintro (h | ⟨hitem, before, found, after, rfl, hbefore, hfound⟩)
    · exact ⟨[], item, items, rfl, List.forall_mem_nil _, h⟩
    · exact ⟨item :: before, found, after, rfl, List.forall_mem_cons.2 ⟨hitem, hbefore⟩, hfound⟩

/-- It is found in the first list, or in the second one if all pass in the first one. -/
theorem first_append :
    First Passes Fails (items ++ more) reason ↔
      First Passes Fails items reason ∨
        (∀ item ∈ items, Passes item) ∧ First Passes Fails more reason := by
  induction items with
  | nil => simp [not_first_nil]
  | cons item items ih =>
    rw [List.cons_append, first_cons, first_cons, ih, List.forall_mem_cons, and_or_left,
      ← and_assoc, ← or_assoc]

namespace First

/-- Where all items pass, none fails first. -/
theorem not_forall (h : First Passes Fails items reason)
    (hfails : ∀ item reason, Fails item reason → ¬Passes item) : ¬∀ item ∈ items, Passes item := by
  obtain ⟨before, item, after, rfl, -, hitem⟩ := h
  exact fun hall => hfails item reason hitem (hall item (by simp))

/-- If each item fails for one reason, then the first one does. -/
theorem unique (h : First Passes Fails items reason) (h' : First Passes Fails items reason')
    (hfails : ∀ item reason, Fails item reason → ¬Passes item)
    (hunique : ∀ item reason reason', Fails item reason → Fails item reason' → reason = reason') :
    reason = reason' := by
  induction items with
  | nil => exact absurd h not_first_nil
  | cons item items ih =>
    rcases first_cons.1 h with h | ⟨hitem, h⟩
    · rcases first_cons.1 h' with h' | ⟨hitem, -⟩
      · exact hunique item reason reason' h h'
      · exact absurd hitem (hfails item reason h)
    · rcases first_cons.1 h' with h' | ⟨-, h'⟩
      · exact absurd hitem (hfails item reason' h')
      · exact ih h h'

end First

end Criteria

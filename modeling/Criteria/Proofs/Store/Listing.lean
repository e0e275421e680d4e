import Criteria.Proofs.Store.Orderly

/-!
# The listing of an orderly store

An orderly store lists the rules that it loads, and there is one order for them. So what
it lists after a change follows from what it loads then: a rule that is replaced keeps its
place, one that is newer than all others comes last, and the others stay where they are.

* `Store.Lists`, `Store.Orderly.list_eq_ok_iff`: what an orderly store lists;
* `Store.Lists.replace`, `Store.Lists.append`, `Store.Lists.remove`: after a change.
-/

namespace Criteria.Store

open StoredRule

variable {store store' : Store} {rules : List StoredRule} {old new : StoredRule} {id : String}

/-- A list of the rules that a store loads, each under its own id, by their places. -/
structure Lists (store : Store) (rules : List StoredRule) : Prop where
  placed : rules.Pairwise (InvImage Before place)
  mem : ∀ rule, rule ∈ rules ↔ store.load rule.id = .ok rule

/-- There is one such list, and an orderly store answers with it. -/
theorem Orderly.list_eq_ok_iff (h : store.Orderly) :
    store.list = .ok rules ↔ store.Lists rules := by
  obtain ⟨rules', hlist, hplaced, hmem⟩ := h.exists_list
  rw [hlist]
  constructor
  · intro heq
    obtain rfl := Except.ok.inj heq
    exact ⟨hplaced, hmem⟩
  · intro hlists
    refine congrArg Except.ok (hplaced.eq_of_mem_iff hlists.placed fun rule => ?_)
    rw [hmem, hlists.mem]

/-- No two rules of the list have one id. -/
theorem Lists.nodup_ids (h : store.Lists rules) : (rules.map (·.id)).Nodup := by
  rw [List.Nodup, List.pairwise_map]
  refine h.placed.imp_of_mem fun {rule other} hrule hother hbefore hid => ?_
  have hload := (h.mem other).1 hother
  rw [← hid, (h.mem rule).1 hrule] at hload
  obtain rfl := Except.ok.inj hload
  exact Std.Asymm.asymm _ _ hbefore hbefore

theorem Lists.congr (h : store.Lists rules) (hload : ∀ id, store'.load id = store.load id) :
    store'.Lists rules where
  placed := h.placed
  mem rule := by rw [h.mem, hload]

theorem lists_nil_of_isEmpty (h : store.IsEmpty) : store.Lists [] where
  placed := .nil
  mem _ := iff_of_false List.not_mem_nil (load_ne_ok_of_isEmpty h)

/-- A rule that is saved again with its time of creation stays in its place. -/
theorem Lists.place_replace (h : store.Lists rules) (hold : store.load old.id = .ok old)
    (hplace : new.place = old.place) :
    ∀ rule ∈ rules, (if rule.id = new.id then new else rule).place = rule.place := by
  intro rule hrule
  split
  · rename_i heq
    have hload := (h.mem rule).1 hrule
    rw [heq, show new.id = old.id from congrArg Prod.snd hplace, hold] at hload
    rw [hplace, Except.ok.inj hload]
  · rfl

theorem Lists.replace (h : store.Lists rules)
    (hload : ∀ id, store'.load id = if id = new.id then .ok new else store.load id)
    (hold : store.load old.id = .ok old) (hplace : new.place = old.place) :
    store'.Lists (rules.map fun rule => if rule.id = new.id then new else rule) := by
  have hid : new.id = old.id := congrArg Prod.snd hplace
  have hplaces := h.place_replace hold hplace
  constructor
  · refine List.pairwise_map.2 (h.placed.imp_of_mem fun ha hb hab => ?_)
    rw [InvImage, hplaces _ ha, hplaces _ hb]
    exact hab
  · intro rule
    rw [List.mem_map, hload]
    by_cases heq : rule.id = new.id
    · rw [if_pos heq, Except.ok.injEq]
      constructor
      · rintro ⟨found, -, hfound⟩
        split at hfound
        · exact hfound
        · rename_i hne
          exact absurd (hfound ▸ heq) hne
      · rintro rfl
        exact ⟨old, (h.mem old).2 hold, if_pos hid.symm⟩
    · rw [if_neg heq, ← h.mem]
      constructor
      · rintro ⟨found, hmem, hfound⟩
        split at hfound
        · exact absurd (congrArg StoredRule.id hfound.symm) heq
        · rwa [← hfound]
      · exact fun hmem => ⟨rule, hmem, if_neg heq⟩

/-- A rule with a new id that was created after all others comes last. -/
theorem Lists.append (h : store.Lists rules)
    (hload : ∀ id, store'.load id = if id = new.id then .ok new else store.load id)
    (hbefore : ∀ rule ∈ rules, rule.created.position < new.created.position)
    (hnew : ∀ rule ∈ rules, rule.id ≠ new.id) : store'.Lists (rules ++ [new]) where
  placed := by
    refine List.pairwise_append.2 ⟨h.placed, List.pairwise_singleton _ _, ?_⟩
    intro rule hrule last hlast
    obtain rfl := List.mem_singleton.1 hlast
    exact .inl (hbefore rule hrule)
  mem rule := by
    rw [List.mem_append, List.mem_singleton, h.mem, hload]
    by_cases heq : rule.id = new.id
    · have hne : store.load rule.id ≠ .ok rule := fun hold => hnew rule ((h.mem rule).2 hold) heq
      rw [if_pos heq, or_iff_right hne, Except.ok.injEq, eq_comm]
    · rw [if_neg heq, or_iff_left fun h => heq (congrArg StoredRule.id h)]

/-- Where a rule is removed, the others stay where they are. -/
theorem Lists.remove (h : store.Lists rules) {cause : StoreError}
    (hload : ∀ other, store'.load other = if other = id then .error cause else store.load other) :
    store'.Lists (rules.filter (·.id ≠ id)) where
  placed := h.placed.filter _
  mem rule := by
    rw [List.mem_filter, h.mem, hload]
    by_cases heq : rule.id = id <;> simp [heq]

end Criteria.Store

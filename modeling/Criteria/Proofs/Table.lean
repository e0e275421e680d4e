import Criteria.Table

/-!
# Tables as sets of entries

The view of a table by name and its list of entries say the same, since no two entries
have the same name.

* `Table.get?_eq_some_iff`: an entry is found under its name;
* `names_erase`, `names_insert`: what the two changes do to the names;
* `get?_ofList`: of a list of entries, the last with a name is found in its table.
-/

namespace Criteria.Table

variable {α : Type} {t : Table α} {name : String}

/-- The name of the first entry finds it, and any other name what it finds among the rest. -/
theorem lookup_cons_eq_ite (name other : String) (entry : α) (entries : List (String × α)) :
    ((name, entry) :: entries).lookup other =
      if other = name then some entry else entries.lookup other := by
  rw [List.lookup_cons]
  split
  · rw [if_pos (eq_of_beq ‹_›)]
  · rw [if_neg (ne_of_beq_false ‹_›)]

theorem get?_eq_some_iff {entry : α} : t.get? name = some entry ↔ (name, entry) ∈ t.entries := by
  obtain ⟨entries, nodup⟩ := t
  change entries.lookup name = some entry ↔ _
  induction entries with
  | nil => simp
  | cons first rest ih =>
    rw [List.map_cons, List.nodup_cons] at nodup
    obtain ⟨other, value⟩ := first
    by_cases hname : name = other
    · subst hname
      -- The first entry is the only one with its name.
      have hrest : (name, entry) ∉ rest := fun hmem =>
        nodup.1 (List.mem_map.2 ⟨_, hmem, rfl⟩)
      simp [hrest, eq_comm]
    · rw [List.lookup_cons, beq_false_of_ne hname]
      exact (ih nodup.2).trans (by simp [hname])

theorem mem_names_iff : name ∈ t.names ↔ ∃ entry, t.get? name = some entry := by
  simp only [names, List.mem_map, get?_eq_some_iff]
  constructor
  · rintro ⟨e, he, rfl⟩
    exact ⟨e.2, he⟩
  · rintro ⟨entry, he⟩
    exact ⟨(name, entry), he, rfl⟩

theorem names_erase (t : Table α) (name : String) :
    (t.erase name).names = t.names.filter (· != name) := by
  rw [names, names, erase, List.filter_map]
  rfl

theorem names_insert (t : Table α) (name : String) (entry : α) :
    (t.insert name entry).names = name :: t.names.filter (· != name) := by
  rw [← names_erase]
  rfl

/-! ## Tables of lists -/

variable {entries : List (String × α)}

/-- Of several entries with a name, the last is found in the table of a list. -/
theorem get?_ofList (entries : List (String × α)) (name : String) :
    (ofList entries).get? name = entries.reverse.lookup name := by
  have from_table (t : Table α) :
      (entries.foldl (fun t e => t.insert e.1 e.2) t).get? name =
        (entries.reverse.lookup name).or (t.get? name) := by
    induction entries generalizing t with
    | nil => rfl
    | cons first rest ih =>
      rw [List.foldl_cons, ih, get?_insert, List.reverse_cons, List.lookup_append, Option.or_assoc,
        lookup_cons_eq_ite]
      split <;> rfl
  rw [ofList, from_table, get?_empty, Option.or_none]

theorem lookup_eq_none_of_not_mem (h : name ∉ entries.map (·.1)) : entries.lookup name = none := by
  rw [List.lookup_eq_none_iff]
  intro e he
  refine bne_iff_ne.2 ?_
  rintro rfl
  exact h (List.mem_map.2 ⟨e, he, rfl⟩)

/-- Where names differ, it does not matter from which end an entry is looked for. -/
theorem lookup_reverse (h : (entries.map (·.1)).Nodup) (name : String) :
    entries.reverse.lookup name = entries.lookup name := by
  induction entries with
  | nil => rfl
  | cons first rest ih =>
    obtain ⟨other, entry⟩ := first
    obtain ⟨hother, hrest⟩ := List.nodup_cons.1 h
    rw [List.reverse_cons, List.lookup_append, ih hrest, lookup_cons_eq_ite, lookup_cons_eq_ite]
    split
    · rename_i hname
      rw [hname, lookup_eq_none_of_not_mem hother, Option.none_or]
    · exact Option.or_none

theorem lookup_map {β : Type} (f : α → β) (entries : List (String × α)) (name : String) :
    (entries.map fun e => (e.1, f e.2)).lookup name = (entries.lookup name).map f := by
  induction entries with
  | nil => rfl
  | cons first rest ih =>
    obtain ⟨other, entry⟩ := first
    rw [List.map_cons, lookup_cons_eq_ite, lookup_cons_eq_ite, ih]
    split <;> rfl

end Criteria.Table

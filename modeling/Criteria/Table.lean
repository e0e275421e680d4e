/-!
# Tables

A table holds at most one entry for each name. The entry put in last comes first.

* `Table.get?`: the view of a table, the entry with a name;
* `get?_insert`, `get?_erase`: what the two changes do to the view.
-/

namespace Criteria

/-- Entries with different names. -/
structure Table (α : Type) where
  entries : List (String × α)
  nodup : (entries.map (·.1)).Nodup

namespace Table

variable {α : Type}

/-- The table without entries. -/
def empty : Table α := ⟨[], List.nodup_nil⟩

instance : Inhabited (Table α) := ⟨empty⟩

/-- The entry with a name. -/
def get? (t : Table α) (name : String) : Option α := t.entries.lookup name

/-- Whether there is an entry with a name. -/
def contains (t : Table α) (name : String) : Bool := (t.get? name).isSome

/-- The names of the entries. -/
def names (t : Table α) : List String := t.entries.map (·.1)

/-- The table without the entry with a name. -/
def erase (t : Table α) (name : String) : Table α where
  entries := t.entries.filter fun e => e.1 != name
  nodup := (List.filter_sublist.map _).nodup t.nodup

/-- The table with an entry put in, in place of any with the same name. -/
def insert (t : Table α) (name : String) (entry : α) : Table α where
  entries := (name, entry) :: (t.erase name).entries
  nodup := by
    rw [List.map_cons, List.nodup_cons]
    exact ⟨by simp [erase], (t.erase name).nodup⟩

/-- The table of a list of entries, of which the last with a name counts. -/
def ofList (entries : List (String × α)) : Table α :=
  entries.foldl (fun t e => t.insert e.1 e.2) empty

@[simp]
theorem get?_empty (name : String) : (empty : Table α).get? name = none := rfl

theorem lookup_filter_ne (entries : List (String × α)) {name other : String}
    (h : other ≠ name) :
    (entries.filter fun e => e.1 != name).lookup other = entries.lookup other := by
  induction entries with
  | nil => rfl
  | cons e rest ih =>
    by_cases hn : e.1 = name
    · rw [List.filter_cons_of_neg (by simp [hn]), ih, List.lookup_cons]
      simp [beq_false_of_ne (hn ▸ h)]
    · rw [List.filter_cons_of_pos (by simp [hn]), List.lookup_cons, List.lookup_cons, ih]

theorem lookup_filter_self (entries : List (String × α)) (name : String) :
    (entries.filter fun e => e.1 != name).lookup name = none := by
  rw [List.lookup_eq_none_iff]
  intro e he
  have := (List.mem_filter.1 he).2
  simp only [bne_iff_ne, ne_eq] at this
  simpa using fun h => this h.symm

theorem get?_erase (t : Table α) (name other : String) :
    (t.erase name).get? other = if other = name then none else t.get? other := by
  by_cases h : other = name
  · subst h
    simp [get?, erase, lookup_filter_self]
  · simp [get?, erase, lookup_filter_ne _ h, h]

theorem get?_insert (t : Table α) (name other : String) (entry : α) :
    (t.insert name entry).get? other = if other = name then some entry else t.get? other := by
  by_cases h : other = name
  · subst h
    simp [get?, insert]
  · have := get?_erase t name other
    simp only [h, if_false] at this
    simpa [get?, insert, List.lookup_cons, beq_false_of_ne h, h] using this

end Table

end Criteria

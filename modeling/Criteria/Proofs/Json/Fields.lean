import Criteria.Json.Raw
import Criteria.Proofs.Table

/-!
# Fields in order

Putting a field among others changes what is found under its name and under no other, and
keeps fields in order that are in the strict order of their names. So each field is found in
order, and of several with the same name the last.

* `Json.last?`: the value that counts under a name;
* `Json.lookup_sortFields`: it is found among the sorted fields;
* `Json.sorted_sortFields`: sorted fields are in strict order.
-/

namespace Criteria.Json

open Table (lookup_cons_eq_ite)

variable {name : String} {value : Json} {fields : List (String × Json)}

/-- The value of the last field with a name. -/
def last? (fields : List (String × Json)) (name : String) : Option Json :=
  fields.reverse.lookup name

/-- Fields are in the strict order of their names. -/
def Sorted (fields : List (String × Json)) : Prop := fields.Pairwise (·.1 < ·.1)

/-! ## Found by name -/

/-- Whether or not the fields are in order, the one put in is found under its name. -/
theorem lookup_insertField (name other : String) (value : Json) (fields : List (String × Json)) :
    (insertField name value fields).lookup other =
      if other = name then some value else fields.lookup other := by
  induction fields with
  | nil => exact lookup_cons_eq_ite name other value []
  | cons field fields ih =>
    obtain ⟨first, json⟩ := field
    rw [insertField]
    split
    · exact lookup_cons_eq_ite name other value _
    · split
      · rename_i heq
        obtain rfl : name = first := heq
        rw [lookup_cons_eq_ite, lookup_cons_eq_ite]
        split <;> rfl
      · rename_i hne
        rw [lookup_cons_eq_ite, lookup_cons_eq_ite, ih]
        split
        · rename_i heq
          rw [if_neg fun h => hne (h.symm.trans heq)]
        · rfl

/-- Among sorted fields, the last with a name is found. -/
theorem lookup_sortFields (fields : List (String × Json)) (name : String) :
    (sortFields fields).lookup name = last? fields name := by
  -- The later a field is put in, the earlier it is found.
  have from_sorted (sorted : List (String × Json)) :
      (fields.foldl (fun sorted field => insertField field.1 field.2 sorted) sorted).lookup name =
        (fields.reverse ++ sorted).lookup name := by
    induction fields generalizing sorted with
    | nil => rfl
    | cons field fields ih =>
      rw [List.foldl_cons, ih, List.reverse_cons, List.append_assoc, List.lookup_append,
        List.lookup_append, lookup_insertField, List.singleton_append, lookup_cons_eq_ite]
  rw [sortFields, from_sorted, List.append_nil, last?]

/-! ## In order -/

theorem mem_insertField {field : String × Json} (h : field ∈ insertField name value fields) :
    field = (name, value) ∨ field ∈ fields := by
  induction fields with
  | nil => exact List.mem_cons.1 h
  | cons first fields ih =>
    rw [insertField] at h
    split at h
    · exact List.mem_cons.1 h
    · split at h
      · exact (List.mem_cons.1 h).imp_right (List.mem_cons_of_mem _)
      · rcases List.mem_cons.1 h with rfl | h
        · exact .inr List.mem_cons_self
        · exact (ih h).imp_right (List.mem_cons_of_mem _)

/-- No field is made up in sorting. -/
theorem mem_of_mem_sortFields {field : String × Json} :
    field ∈ sortFields fields → field ∈ fields := by
  have from_sorted {sorted : List (String × Json)}
      (h : field ∈ fields.foldl (fun sorted field => insertField field.1 field.2 sorted) sorted) :
      field ∈ fields ∨ field ∈ sorted := by
    induction fields generalizing sorted with
    | nil => exact .inr h
    | cons first fields ih =>
      rcases ih h with h | h
      · exact .inl (List.mem_cons_of_mem _ h)
      · exact (mem_insertField h).imp_left fun heq => List.mem_cons.2 (.inl heq)
  exact fun h => (from_sorted h).resolve_right List.not_mem_nil

theorem Sorted.insertField (h : Sorted fields) (name : String) (value : Json) :
    Sorted (insertField name value fields) := by
  induction fields with
  | nil => exact List.pairwise_singleton _ _
  | cons first fields ih =>
    obtain ⟨hfirst, hfields⟩ := List.pairwise_cons.1 h
    rw [Json.insertField]
    split
    · rename_i hlt
      refine List.pairwise_cons.2 ⟨List.forall_mem_cons.2 ⟨hlt, fun field hfield => ?_⟩, h⟩
      exact String.lt_trans hlt (hfirst field hfield)
    · split
      · rename_i heq
        exact List.pairwise_cons.2 ⟨fun field hfield => heq ▸ hfirst field hfield, hfields⟩
      · rename_i hle hne
        refine List.pairwise_cons.2 ⟨fun field hfield => ?_, ih hfields⟩
        rcases mem_insertField hfield with rfl | hfield
        · exact Std.lt_of_le_of_ne (String.not_lt.1 hle) (Ne.symm hne)
        · exact hfirst field hfield

/-- Fields come out in the strict order of their names. -/
theorem sorted_sortFields (fields : List (String × Json)) : Sorted (sortFields fields) := by
  have from_sorted {sorted : List (String × Json)} (h : Sorted sorted) :
      Sorted (fields.foldl (fun sorted field => insertField field.1 field.2 sorted) sorted) := by
    induction fields generalizing sorted with
    | nil => exact h
    | cons field fields ih => exact ih (h.insertField field.1 field.2)
  exact from_sorted List.Pairwise.nil

end Criteria.Json

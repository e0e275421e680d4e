import Criteria.Proofs.Json.Fields
import Criteria.Proofs.Json.Reading
import Criteria.Record

/-!
# Records as JSON

A JSON value is a record if it is an object of numbers and strings. If it is not, the kind of
the value is reported, or of the fields that hold something else the one with the least name.

* `Record.Describes`: the fields of an object hold what a record does;
* `Record.describes_fields`: every record is described by fields;
* `Record.exists_ofJson`: the record that fields describe is read from their object;
* `Record.ofJson_eq_error_iff`: which JSON values are no records, and why.
-/

namespace Criteria

/-! ## Values -/

/-- The value that a number or string stands for. -/
inductive Json.Means : Json → Value → Prop
  | number (n : Json.Num) : Means (.number n) (.number n.toNumber)
  | string (s : String) : Means (.string s) (.text s)

/-- Whether a JSON value is a number or a string. -/
def Json.isScalar : Json → Bool
  | .number _ | .string _ => true
  | _ => false

namespace Value

variable {json : Json} {v : Value}

/-- A number or string has a value, and anything else has none. -/
theorem ofJson?_cases (json : Json) :
    (∃ v, json.isScalar ∧ ofJson? json = some v ∧ json.Means v) ∨
      ¬json.isScalar ∧ ofJson? json = none := by
  cases json with
  | number n => exact .inl ⟨_, rfl, rfl, .number n⟩
  | string s => exact .inl ⟨_, rfl, rfl, .string s⟩
  | null | boolean b | array items | object fields => exact .inr ⟨Bool.false_ne_true, rfl⟩

theorem isScalar_of_means (h : json.Means v) : json.isScalar := by
  cases h <;> rfl

/-- What stands for a value stands for no other, and what is missing for none. -/
theorem eq_of_rel_means {json? : Option Json} {v? w? : Option Value}
    (h : Option.Rel Json.Means json? v?) (h' : Option.Rel Json.Means json? w?) : v? = w? := by
  cases h with
  | none =>
    cases h'
    rfl
  | some hmeans =>
    cases h' with
    | some hmeans' => cases hmeans <;> cases hmeans' <;> rfl

/-- A number or text as JSON. -/
def asJson : Value → Json
  | .number x => .number (.float x)
  | .text s => .string s

theorem means_asJson (v : Value) : v.asJson.Means v := by
  cases v with
  | number x => exact .number (.float x)
  | text s => exact .string s

theorem floats_asJson (h : v.isFinite) : v.asJson.Floats := by
  cases v with
  | number x => exact h
  | text s => trivial

end Value

namespace Record

/-! ## Records as objects -/

/-- All values of a record are texts and finite numbers. -/
def IsFinite (r : Record) : Prop := ∀ name v, r.get? name = some v → v.isFinite

/-- The fields of an object hold what a record does. Of several with a name the last counts. -/
def Describes (fields : List (String × Json)) (r : Record) : Prop :=
  ∀ name, Option.Rel Json.Means (Json.last? fields name) (r.get? name)

/-- The fields that hold the values of a record. -/
def fields (r : Record) : List (String × Json) := r.entries.map fun e => (e.1, e.2.asJson)

theorem describes_fields (r : Record) : Describes r.fields r := by
  intro name
  have hnames : r.fields.map (·.1) = r.names := List.map_map
  rw [Json.last?, Table.lookup_reverse (hnames ▸ r.nodup), fields, Table.lookup_map, Table.get?]
  cases r.entries.lookup name with
  | none => exact .none
  | some v => exact .some v.means_asJson

theorem fieldFloats_fields {r : Record} (h : r.IsFinite) : Json.FieldFloats r.fields := by
  have hall : ∀ e ∈ r.entries, e.2.isFinite := fun e he => h e.1 e.2 (Table.get?_eq_some_iff.2 he)
  rw [fields]
  generalize r.entries = entries at hall ⊢
  induction entries with
  | nil => trivial
  | cons first rest ih =>
    obtain ⟨hfirst, hrest⟩ := List.forall_mem_cons.1 hall
    exact ⟨Value.floats_asJson hfirst, ih hrest⟩

/-! ## Objects as records -/

variable {fields : List (String × Json)} {name other : String} {json value : Json}

/-- Of the fields that hold neither a number nor a string, this one has the least name. -/
structure LeastUnsupported (value? : String → Option Json) (name : String) (json : Json) :
    Prop where
  found : value? name = some json
  unsupported : ¬json.isScalar
  least : ∀ other value, value? other = some value → ¬value.isScalar → ¬other < name

/-- There is at most one such field. -/
theorem LeastUnsupported.eq {value? : String → Option Json}
    (h : LeastUnsupported value? name json) (h' : LeastUnsupported value? other value) :
    name = other ∧ json = value := by
  have hname : name = other := String.le_antisymm
    (String.not_lt.1 (h.least other value h'.found h'.unsupported))
    (String.not_lt.1 (h'.least name json h.found h.unsupported))
  subst hname
  exact ⟨rfl, Option.some.inj (h.found.symm.trans h'.found)⟩

/-- Fields in the strict order of their names have values, or the first that has none is
    reported. -/
theorem valuesOf_cases (hs : Json.Sorted fields) :
    (∃ values, valuesOf fields = .ok values ∧ values.map (·.1) = fields.map (·.1) ∧
      ∀ name, Option.Rel Json.Means (fields.lookup name) (values.lookup name)) ∨
    ∃ name json, LeastUnsupported (fields.lookup ·) name json ∧
      valuesOf fields = .error (.unsupportedField name json.text) := by
  induction fields with
  | nil => exact .inl ⟨[], rfl, rfl, fun _ => .none⟩
  | cons field fields ih =>
    obtain ⟨first, json⟩ := field
    obtain ⟨hfirst, hfields⟩ := List.pairwise_cons.1 hs
    rcases Value.ofJson?_cases json with ⟨v, hscalar, hv, hmeans⟩ | ⟨hscalar, hv⟩
    · rcases ih hfields with ⟨values, hvalues, hnames, hrel⟩ | ⟨name, json', hleast, herror⟩
      · refine .inl ⟨(first, v) :: values, ?_, congrArg (first :: ·) hnames, fun name => ?_⟩
        · simp only [valuesOf, hv, hvalues]
          rfl
        · rw [Table.lookup_cons_eq_ite, Table.lookup_cons_eq_ite]
          split
          · exact .some hmeans
          · exact hrel name
      · refine .inr ⟨name, json', ⟨?_, hleast.unsupported, fun other value hfound hother => ?_⟩, ?_⟩
        · have hlt : first < name := hfirst _ (Json.Shape.mem_of_lookup hleast.found)
          rw [Table.lookup_cons_eq_ite, if_neg fun heq => String.lt_irrefl _ (heq ▸ hlt)]
          exact hleast.found
        · rw [Table.lookup_cons_eq_ite] at hfound
          split at hfound
          · obtain rfl := Option.some.inj hfound
            exact absurd hscalar hother
          · exact hleast.least other value hfound hother
        · simp only [valuesOf, hv, herror]
          rfl
    · refine .inr ⟨first, json, ⟨?_, hscalar, fun other value hfound _ => ?_⟩, ?_⟩
      · rw [Table.lookup_cons_eq_ite, if_pos rfl]
      · -- All other fields have greater names.
        rcases List.mem_cons.1 (Json.Shape.mem_of_lookup hfound) with heq | hmem
        · rw [(Prod.mk.inj heq).1]
          exact String.lt_irrefl first
        · exact String.lt_asymm (hfirst _ hmem)
      · simp only [valuesOf, hv]

/-- An object is read as the record that its fields describe, or of the fields that hold
    neither a number nor a string the one with the least name is reported. -/
theorem ofJson_object_cases (fields : List (String × Json)) :
    (∃ r, ofJson (.object fields) = .ok r ∧ Describes fields r) ∨
    ∃ name json, LeastUnsupported (Json.last? fields) name json ∧
      ofJson (.object fields) = .error (.unsupportedField name json.text) := by
  have hlookup : (fun name => (Json.sortFields fields).lookup name) = Json.last? fields :=
    funext (Json.lookup_sortFields fields)
  rcases valuesOf_cases (Json.sorted_sortFields fields) with
    ⟨values, hvalues, hnames, hrel⟩ | ⟨name, json, hleast, herror⟩
  · refine .inl ⟨Table.ofList values, by rw [ofJson, hvalues]; rfl, fun name => ?_⟩
    have hnodup : (values.map (·.1)).Nodup := by
      rw [hnames, List.nodup_iff_pairwise_ne, List.pairwise_map]
      refine (Json.sorted_sortFields fields).imp fun {a b} hlt heq => ?_
      exact String.lt_irrefl _ (show a.1 < a.1 from heq ▸ hlt)
    rw [Table.get?_ofList, Table.lookup_reverse hnodup, ← Json.lookup_sortFields]
    exact hrel name
  · exact .inr ⟨name, json, hlookup ▸ hleast, by rw [ofJson, herror]; rfl⟩

/-- Records that the same fields describe have the same values. -/
theorem Describes.get?_eq {r r' : Record} (h : Describes fields r) (h' : Describes fields r')
    (name : String) : r.get? name = r'.get? name :=
  Value.eq_of_rel_means (h name) (h' name)

/-- Fields that describe a record hold nothing but numbers and strings. -/
theorem Describes.not_leastUnsupported {r : Record} (h : Describes fields r) (name : String)
    (json : Json) : ¬LeastUnsupported (Json.last? fields) name json := by
  intro hleast
  have hname := h name
  rw [hleast.found] at hname
  generalize r.get? name = v? at hname
  obtain ⟨hmeans⟩ := hname
  exact hleast.unsupported (Value.isScalar_of_means hmeans)

/-- From fields that describe a record, one with the same values is read. -/
theorem exists_ofJson {r : Record} (h : Describes fields r) :
    ∃ r', ofJson (.object fields) = .ok r' ∧ ∀ name, r'.get? name = r.get? name := by
  rcases ofJson_object_cases fields with ⟨r', hr', hd⟩ | ⟨name, json, hleast, -⟩
  · exact ⟨r', hr', hd.get?_eq h⟩
  · exact absurd hleast (h.not_leastUnsupported name json)

/-- A JSON value is no record if it is no object, or if some field holds neither a number nor
    a string. -/
theorem ofJson_eq_error_iff {data : Json} {e : RecordError} :
    ofJson data = .error e ↔
      ((∀ fields, data ≠ .object fields) ∧ e = .notObject data.kind) ∨
      ∃ fields name json, data = .object fields ∧ LeastUnsupported (Json.last? fields) name json ∧
        e = .unsupportedField name json.text := by
  constructor
  · intro h
    cases data with
    | object fields =>
      rcases ofJson_object_cases fields with ⟨r, hr, -⟩ | ⟨name, json, hleast, herror⟩
      · simp [hr] at h
      · exact .inr ⟨fields, name, json, rfl, hleast, Except.error.inj (h.symm.trans herror)⟩
    | null | boolean b | number n | string s | array items =>
      exact .inl ⟨by simp, (Except.error.inj h).symm⟩
  · rintro (⟨hobject, rfl⟩ | ⟨fields, name, json, rfl, hleast, rfl⟩)
    · cases data with
      | object fields => exact absurd rfl (hobject fields)
      | null | boolean b | number n | string s | array items => rfl
    · rcases ofJson_object_cases fields with ⟨r, -, hd⟩ | ⟨other, value, hleast', herror⟩
      · exact absurd hleast (hd.not_leastUnsupported name json)
      · obtain ⟨rfl, rfl⟩ := hleast.eq hleast'
        exact herror

end Record

end Criteria

import Criteria.Number.Layout

/-!
# JSON values

* `Json.Shape`: the shape of JSON, over a type of numbers and a type of strings;
* `Json`: a JSON value, whose numbers are integers or binary64 numbers;
* `Json.Shape.nesting`: how deep arrays and objects nest;
* `Json.Shape.parts?`: the named parts of an object, or of an array that lists
  them in order.
-/

namespace Criteria

namespace Json

/-- The shape of JSON, with numbers `ν` and strings `σ`. -/
inductive Shape (ν σ : Type)
  | null
  | boolean (b : Bool)
  | number (n : ν)
  | string (s : σ)
  | array (items : List (Shape ν σ))
  | object (fields : List (σ × Shape ν σ))

/-- A number of a JSON value. -/
inductive Num
  | integer (i : Int)
  | float (x : Number)
  deriving DecidableEq

/-- The number as binary64. -/
def Num.toNumber : Num → Number
  | .integer i => .ofInt i
  | .float x => x

namespace Shape

variable {ν σ : Type}

/-- What a value is called in a message. -/
def kind : Shape ν σ → String
  | .null => "null"
  | .boolean _ => "boolean"
  | .number _ => "number"
  | .string _ => "string"
  | .array _ => "array"
  | .object _ => "object"

mutual

/-- How deep arrays and objects nest in a value. -/
def nesting : Shape ν σ → Nat
  | .array items => itemsNesting items + 1
  | .object fields => fieldsNesting fields + 1
  | _ => 0

/-- How deep arrays and objects nest in items. -/
def itemsNesting : List (Shape ν σ) → Nat
  | [] => 0
  | item :: items => max item.nesting (itemsNesting items)

/-- How deep arrays and objects nest in fields. -/
def fieldsNesting : List (σ × Shape ν σ) → Nat
  | [] => 0
  | (_, value) :: fields => max value.nesting (fieldsNesting fields)

end

/-- The fields of an object with their names, if all of them have one. -/
def named? (name? : σ → Option String) :
    List (σ × Shape ν σ) → Option (List (String × Shape ν σ))
  | [] => some []
  | (key, value) :: fields =>
    match name? key, named? name? fields with
    | some name, some fields => some ((name, value) :: fields)
    | _, _ => none

/-- The parts of a value with the given names: the fields of an object, each of
    which occurs at most once among further ones, or the first items of an array
    that has no further ones. A part may be missing. -/
def parts? (name? : σ → Option String) (names : List String) :
    Shape ν σ → Option (List (Option (Shape ν σ)))
  | .array items =>
    if names.length < items.length then none
    else some (items.map some ++ List.replicate (names.length - items.length) none)
  | .object fields =>
    (named? name? fields).bind fun fields =>
      if names.all fun name => (fields.filter (·.1 == name)).length ≤ 1 then
        some (names.map fun name => fields.lookup name)
      else none
  | _ => none

/-- The name of a choice among names: a string, or an object whose only field has
    that name and is `null`. An object is refused where no nesting is left. -/
def choice? (name? : σ → Option String) (room : Nat) : Shape ν σ → Option String
  | .string s => name? s
  | .object [(key, .null)] => if room = 0 then none else name? key
  | _ => none

/-! ## Parts are smaller than the whole -/

theorem mem_of_named? {name? : σ → Option String} {fields : List (σ × Shape ν σ)}
    {result : List (String × Shape ν σ)} (h : named? name? fields = some result) {name : String}
    {value : Shape ν σ} (hv : (name, value) ∈ result) : ∃ key, (key, value) ∈ fields := by
  induction fields generalizing result with
  | nil =>
    simp only [named?, Option.some.injEq] at h
    subst h
    simp at hv
  | cons field fields ih =>
    obtain ⟨key, first⟩ := field
    simp only [named?] at h
    split at h
    · rename_i heq
      simp only [Option.some.injEq] at h
      subst h
      rcases List.mem_cons.1 hv with hv | hv
      · obtain ⟨-, rfl⟩ := Prod.mk.inj hv
        exact ⟨key, List.mem_cons_self⟩
      · exact (ih heq hv).imp fun _ => List.mem_cons_of_mem _
    · simp at h

theorem mem_of_lookup {α : Type} {fields : List (String × α)} {name : String} {value : α}
    (h : fields.lookup name = some value) : (name, value) ∈ fields := by
  induction fields with
  | nil => simp at h
  | cons field fields ih =>
    obtain ⟨key, first⟩ := field
    by_cases hk : name = key
    · subst hk
      simp only [List.lookup_cons, beq_self_eq_true, Option.some.injEq] at h
      simp [h]
    · rw [List.lookup_cons, beq_false_of_ne hk] at h
      exact List.mem_cons_of_mem _ (ih h)

/-- A part of a value is one of its items, or the value of one of its fields. -/
theorem mem_of_parts? {name? : σ → Option String} {names : List String} {whole part : Shape ν σ}
    {parts : List (Option (Shape ν σ))} (h : whole.parts? name? names = some parts)
    (hp : some part ∈ parts) :
    (∃ items, whole = .array items ∧ part ∈ items) ∨
      ∃ fields key, whole = .object fields ∧ (key, part) ∈ fields := by
  unfold parts? at h
  split at h
  · split at h
    · simp at h
    · simp only [Option.some.injEq] at h
      subst h
      exact .inl ⟨_, rfl, by simpa [List.mem_replicate] using hp⟩
  · obtain ⟨fields, hf, h⟩ := Option.bind_eq_some_iff.1 h
    split at h
    · simp only [Option.some.injEq] at h
      subst h
      obtain ⟨name, _, hn⟩ := List.mem_map.1 hp
      obtain ⟨key, hkey⟩ := mem_of_named? hf (mem_of_lookup hn)
      exact .inr ⟨_, key, rfl, hkey⟩
    · simp at h
  · simp at h

/-- A part of a value is smaller than the value. -/
theorem sizeOf_parts? [SizeOf ν] [SizeOf σ] {name? : σ → Option String} {names : List String}
    {whole part : Shape ν σ} {parts : List (Option (Shape ν σ))}
    (h : whole.parts? name? names = some parts) (hp : some part ∈ parts) :
    sizeOf part < sizeOf whole := by
  rcases mem_of_parts? h hp with ⟨items, rfl, hmem⟩ | ⟨fields, key, rfl, hmem⟩
  · have := List.sizeOf_lt_of_mem hmem
    simp
    omega
  · have := List.sizeOf_lt_of_mem hmem
    simp at this ⊢
    omega

end Shape

end Json

/-- A JSON value. -/
abbrev Json := Json.Shape Json.Num String

end Criteria

import Criteria.Proofs.Json.Fields
import Criteria.Proofs.Number.Whole

/-!
# Numbers in JSON

A number that is read is an integer that fits into 64 bits, or a finite binary64 number, wherever
it stands in a value.

* `Json.Shape.numbers`: all numbers in a value;
* `Json.Num.InRange`: a number that fits;
* `Json.inRange_of_value?`: the numbers in a value that is read fit.
-/

namespace Criteria.Json

namespace Shape

variable {ν σ : Type}

mutual

/-- The numbers in a value. -/
def numbers : Shape ν σ → List ν
  | .number n => [n]
  | .array items => itemNumbers items
  | .object fields => fieldNumbers fields
  | _ => []

/-- The numbers in items. -/
def itemNumbers : List (Shape ν σ) → List ν
  | [] => []
  | item :: items => item.numbers ++ itemNumbers items

/-- The numbers in fields. -/
def fieldNumbers : List (σ × Shape ν σ) → List ν
  | [] => []
  | (_, value) :: fields => value.numbers ++ fieldNumbers fields

end

variable {n : ν}

theorem mem_itemNumbers {items : List (Shape ν σ)} :
    n ∈ itemNumbers items ↔ ∃ item ∈ items, n ∈ item.numbers := by
  induction items with
  | nil => simp [itemNumbers]
  | cons item items ih => simp [itemNumbers, ih]

theorem mem_fieldNumbers {fields : List (σ × Shape ν σ)} :
    n ∈ fieldNumbers fields ↔ ∃ field ∈ fields, n ∈ field.2.numbers := by
  induction fields with
  | nil => simp [fieldNumbers]
  | cons field fields ih => simp [fieldNumbers, ih]

/-- The numbers in a part of a value are numbers in the value. -/
theorem mem_numbers_of_parts? {name? : σ → Option String} {names : List String}
    {whole part : Shape ν σ} {parts : List (Option (Shape ν σ))}
    (h : whole.parts? name? names = some parts) (hp : some part ∈ parts)
    (hn : n ∈ part.numbers) : n ∈ whole.numbers := by
  rcases mem_of_parts? h hp with ⟨items, rfl, hmem⟩ | ⟨fields, key, rfl, hmem⟩
  · exact mem_itemNumbers.2 ⟨part, hmem, hn⟩
  · exact mem_fieldNumbers.2 ⟨(key, part), hmem, hn⟩

end Shape

/-- The number fits: an integer into 64 bits, of which one is for the sign if it is negative, and
    a binary64 number is finite. -/
def Num.InRange : Num → Prop
  | .integer i => -0x8000000000000000 ≤ i ∧ i < Number.wholeLimit
  | .float x => x.isFinite

/-- All numbers in the value fit. -/
def InRange (json : Json) : Prop := ∀ n ∈ json.numbers, n.InRange

instance : DecidablePred Num.InRange
  | .integer i => inferInstanceAs (Decidable (-0x8000000000000000 ≤ i ∧ i < Number.wholeLimit))
  | .float x => inferInstanceAs (Decidable (x.isFinite = true))

instance : DecidablePred InRange := fun _ => List.decidableBAll _ _

/-- A number that fits stands for a finite one. -/
theorem Num.InRange.isFinite {n : Num} (h : n.InRange) : n.toNumber.isFinite := by
  cases n with
  | integer i =>
    obtain ⟨hlow, hhigh⟩ : -0x8000000000000000 ≤ i ∧ i < Number.wholeLimit := h
    have : i.natAbs ≤ Number.wholeLimit := by
      rw [Number.wholeLimit] at *
      omega
    exact Number.isFinite_ofInt this
  | float x => exact h

theorem InRange.of_parts? {names : List String} {whole part : Json} {parts : List (Option Json)}
    (h : whole.InRange) (hparts : whole.parts? some names = some parts)
    (hp : some part ∈ parts) : part.InRange :=
  fun n hn => h n (Shape.mem_numbers_of_parts? hparts hp hn)

/-! ## What is read -/

theorem inRange_of_numeral {numeral : Numeral} {n : Num} (h : numeral.value? = some n) :
    n.InRange := by
  rw [Numeral.value?] at h
  have hfits := numeral.fits
  split at h
  · obtain rfl := Option.some.inj h
    constructor <;> omega
  · split at h
    · rename_i hwhole
      obtain rfl := Option.some.inj h
      rw [Num.InRange, Number.wholeLimit]
      omega
    · simp only at h
      split at h
      · rename_i hfinite
        obtain rfl := Option.some.inj h
        exact hfinite
      · simp at h

mutual

/-- The numbers in a value that is read fit. -/
theorem inRange_of_value? : ∀ (raw : Raw) {room : Nat} {json : Json},
    Raw.value? room raw = some json → json.InRange
  | .null, _, _, h | .boolean b, _, _, h => by
    obtain rfl := Option.some.inj h
    simp [InRange, Shape.numbers]
  | .number numeral, _, _, h => by
    obtain ⟨n, hn, rfl⟩ := Option.map_eq_some_iff.1 h
    simpa [InRange, Shape.numbers] using inRange_of_numeral hn
  | .string s, _, _, h => by
    obtain ⟨s, -, rfl⟩ := Option.map_eq_some_iff.1 h
    simp [InRange, Shape.numbers]
  | .array items, room, _, h => by
    rw [Raw.value?] at h
    split at h
    · simp at h
    · obtain ⟨values, hvalues, rfl⟩ := Option.map_eq_some_iff.1 h
      intro n hn
      obtain ⟨value, hvalue, hn⟩ := Shape.mem_itemNumbers.1 hn
      exact inRange_of_itemValues? items hvalues value hvalue n hn
  | .object fields, room, _, h => by
    rw [Raw.value?] at h
    split at h
    · simp at h
    · obtain ⟨values, hvalues, rfl⟩ := Option.map_eq_some_iff.1 h
      intro n hn
      obtain ⟨field, hfield, hn⟩ := Shape.mem_fieldNumbers.1 hn
      exact inRange_of_fieldValues? fields hvalues field (mem_of_mem_sortFields hfield) n hn

theorem inRange_of_itemValues? : ∀ (items : List Raw) {room : Nat} {values : List Json},
    Raw.itemValues? room items = some values → ∀ value ∈ values, value.InRange
  | [], _, _, h => by
    obtain rfl := Option.some.inj h
    simp
  | item :: items, _, _, h => by
    rw [Raw.itemValues?] at h
    split at h
    · rename_i hitem hitems
      obtain rfl := Option.some.inj h
      exact List.forall_mem_cons.2 ⟨inRange_of_value? item hitem,
        inRange_of_itemValues? items hitems⟩
    · simp at h

theorem inRange_of_fieldValues? : ∀ (fields : List (Option String × Raw)) {room : Nat}
    {values : List (String × Json)}, Raw.fieldValues? room fields = some values →
      ∀ field ∈ values, field.2.InRange
  | [], _, _, h => by
    obtain rfl := Option.some.inj h
    simp
  | (key, value) :: fields, _, _, h => by
    unfold Raw.fieldValues? at h
    split at h
    · rename_i hvalue hfields
      obtain rfl := Option.some.inj h
      exact List.forall_mem_cons.2 ⟨inRange_of_value? value hvalue,
        inRange_of_fieldValues? fields hfields⟩
    · simp at h

end

end Criteria.Json

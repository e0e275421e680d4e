import Criteria.Number.Layout
import Criteria.Proofs.Number.Shortest
import Mathlib.Data.List.Basic

/-!
# Spelled numbers

Whatever its layout, a finite number is written as a *spelling*, with a sign in
front if it is negative: a whole part without needless zeros in front, perhaps a
fraction, and perhaps an exponent.

* `Spelling`: a numeral without a sign, in its parts;
* `exists_write_eq`: the text of a finite number is a spelling that stands for it.
-/

namespace Criteria

/-- A numeral without a sign: a whole part, a fraction that may be empty, and
    perhaps an exponent, whose sign is held apart from its digits. -/
structure Spelling where
  whole : List Char
  fraction : List Char
  exponent : Option (Bool × List Char)
  whole_ne_nil : whole ≠ []
  isDigit_whole : ∀ c ∈ whole, c.isDigit
  whole_eq_zero : whole.head? = some '0' → whole = ['0']
  isDigit_fraction : ∀ c ∈ fraction, c.isDigit
  exponent_ne_nil : ∀ e ∈ exponent, e.2 ≠ []
  isDigit_exponent : ∀ e ∈ exponent, ∀ c ∈ e.2, c.isDigit

namespace Spelling

/-- A fraction behind its point, if there is one. -/
def pointed (fraction : List Char) : List Char :=
  if fraction = [] then [] else '.' :: fraction

/-- An exponent behind its letter and sign, if there is one. -/
def powered : Option (Bool × List Char) → List Char
  | none => []
  | some (negative, digits) => 'e' :: (if negative then '-' else '+') :: digits

/-- The characters of a spelling. -/
def chars (s : Spelling) : List Char := s.whole ++ pointed s.fraction ++ powered s.exponent

/-- The digits before the exponent as one whole number. -/
def coefficient (s : Spelling) : Nat := Nat.ofDigitChars 10 (s.whole ++ s.fraction) 0

/-- What an exponent stands for. -/
def powerOf : Option (Bool × List Char) → Int
  | none => 0
  | some (negative, digits) =>
    let size : Int := Nat.ofDigitChars 10 digits 0
    if negative then -size else size

/-- The power of ten that belongs to the coefficient. -/
def power (s : Spelling) : Int := powerOf s.exponent - s.fraction.length

/-- Whether a spelling has neither a fraction nor an exponent. -/
def isWhole (s : Spelling) : Bool := s.fraction = [] && s.exponent.isNone

/-- The number that a spelling stands for behind a sign. -/
def toNumber (s : Spelling) (negative : Bool) : Number :=
  .ofDecimal negative s.coefficient s.power

end Spelling

/-! ## Digits -/

namespace Number

/-- The digits of a positive number do not start with zero. -/
theorem head?_toDigits {n : Nat} (hn : 0 < n) : (Nat.toDigits 10 n).head? ≠ some '0' := by
  induction n using Nat.strongRecOn with
  | ind n ih =>
    by_cases h : n < 10
    · rw [Nat.toDigits_of_lt_base h, List.head?_cons, ne_eq, Option.some.injEq,
        Nat.digitChar_eq_zero]
      exact hn.ne'
    · rw [Nat.toDigits_of_base_le (by decide) (Nat.le_of_not_lt h),
        List.head?_append_of_ne_nil _ Nat.toDigits_ne_nil]
      exact ih (n / 10) (by omega) (by omega)

theorem isDigit_of_mem_toDigits {n : Nat} : ∀ c ∈ Nat.toDigits 10 n, c.isDigit :=
  fun _ hc => Nat.isDigit_of_mem_toDigits (by decide) (by decide) hc

theorem isDigit_of_mem_zeros {k : Nat} : ∀ c ∈ List.replicate k '0', c.isDigit := by
  intro c hc
  rw [List.eq_of_mem_replicate hc]
  decide

end Number

namespace Decimal

variable {d : Decimal}

theorem digits_ne_nil (d : Decimal) : d.digits ≠ [] := Nat.toDigits_ne_nil

theorem isDigit_digits (d : Decimal) : ∀ c ∈ d.digits, c.isDigit := Number.isDigit_of_mem_toDigits

theorem ofDigitChars_digits (d : Decimal) : Nat.ofDigitChars 10 d.digits 0 = d.coefficient :=
  Nat.ofDigitChars_ten_toDigits

theorem ofDigitChars_digits_zeros (d : Decimal) (k : Nat) :
    Nat.ofDigitChars 10 (d.digits ++ List.replicate k '0') 0 = d.coefficient * Nat.pow 10 k := by
  rw [Nat.ofDigitChars_append, Nat.ofDigitChars_replicate_zero, ofDigitChars_digits, Nat.mul_comm]
  rfl

end Decimal

/-! ## Layouts -/

namespace Spelling

/-- The spelling stands for the decimal, perhaps with zeros appended to its coefficient. -/
def Spells (s : Spelling) (d : Decimal) : Prop :=
  ∃ j : Nat, s.coefficient = d.coefficient * Nat.pow 10 j ∧ s.power = d.exponent - j

variable {layout : Layout} {d : Decimal}

/-- A whole number is spelled with zeros in front of the point and behind it. -/
theorem exists_spells_whole (hd : 0 < d.coefficient) {zeros : Nat} (he : d.exponent = zeros)
    (k : Nat) :
    ∃ s : Spelling, s.chars = d.digits ++ List.replicate zeros '0' ++
      pointed (List.replicate k '0') ∧ s.Spells d ∧ (0 < k → ¬s.isWhole) ∧
      s.whole.length = d.digits.length + zeros := by
  refine ⟨⟨d.digits ++ List.replicate zeros '0', List.replicate k '0', none, ?_, ?_, ?_,
    Number.isDigit_of_mem_zeros, by simp, by simp⟩, ?_, ⟨zeros + k, ?_, ?_⟩, fun hk => ?_,
    by simp⟩
  · simp [d.digits_ne_nil]
  · exact List.forall_mem_append.2 ⟨d.isDigit_digits, Number.isDigit_of_mem_zeros⟩
  · rw [List.head?_append_of_ne_nil _ d.digits_ne_nil]
    exact fun h => absurd h (Number.head?_toDigits hd)
  · simp [chars, powered]
  · simp only [coefficient]
    rw [List.append_assoc, List.replicate_append_replicate, Decimal.ofDigitChars_digits_zeros]
  · simp only [power, powerOf, List.length_replicate]
    omega
  · simp [isWhole, hk.ne']

/-- A number is spelled with the point among its digits. -/
theorem exists_spells_inside (hd : 0 < d.coefficient) {point : Nat} (hpos : 0 < point)
    (he : d.exponent < 0) (hp : (point : Int) = d.digits.length + d.exponent) :
    ∃ s : Spelling, s.chars = d.digits.take point ++ '.' :: d.digits.drop point ∧ s.Spells d ∧
      ¬s.isWhole ∧ s.whole.length ≤ point := by
  have hdrop : d.digits.drop point ≠ [] := by
    rw [ne_eq, List.drop_eq_nil_iff]
    omega
  have htake : d.digits.take point ≠ [] := by
    simp [d.digits_ne_nil, hpos.ne']
  refine ⟨⟨d.digits.take point, d.digits.drop point, none, htake,
    fun c hc => d.isDigit_digits c (List.mem_of_mem_take hc), ?_,
    fun c hc => d.isDigit_digits c (List.mem_of_mem_drop hc), by simp, by simp⟩, ?_, ⟨0, ?_, ?_⟩,
    by simp [isWhole, hdrop], List.length_take_le _ _⟩
  · rw [List.head?_take, if_neg hpos.ne']
    exact fun h => absurd h (Number.head?_toDigits hd)
  · simp [chars, pointed, powered, hdrop]
  · simp only [coefficient]
    rw [List.take_append_drop, Decimal.ofDigitChars_digits]
    simp
  · simp only [power, powerOf, List.length_drop]
    omega

/-- A number below one is spelled with zeros behind the point. -/
theorem exists_spells_small {zeros : Nat} (hz : (d.digits.length + d.exponent : Int) = -zeros) :
    ∃ s : Spelling, s.chars = '0' :: '.' :: (List.replicate zeros '0' ++ d.digits) ∧
      s.Spells d ∧ ¬s.isWhole ∧ s.whole.length = 1 := by
  refine ⟨⟨['0'], List.replicate zeros '0' ++ d.digits, none, by simp, by simp, by simp,
    List.forall_mem_append.2 ⟨Number.isDigit_of_mem_zeros, d.isDigit_digits⟩, by simp, by simp⟩,
    ?_, ⟨0, ?_, ?_⟩, by simp [isWhole, d.digits_ne_nil], rfl⟩
  · simp [chars, pointed, powered, d.digits_ne_nil]
  · simp only [coefficient]
    rw [Nat.ofDigitChars_append, Nat.ofDigitChars_append, Nat.ofDigitChars_replicate_zero]
    simp [Nat.ofDigitChars_cons, Decimal.ofDigitChars_digits]
  · simp only [power, powerOf, List.length_append, List.length_replicate]
    omega

/-- In exponent form, one digit is the whole part, and the others are the fraction. -/
theorem scientific_eq {first : Char} {more : List Char} {e : Int}
    (h : d.digits = first :: more) (he : d.digits.length + d.exponent - 1 = e) :
    Layout.scientific d = first :: (pointed more ++
      powered (some (decide (e < 0), Nat.toDigits 10 e.natAbs))) := by
  subst he
  cases more <;> simp [Layout.scientific, h, pointed, powered]

theorem powerOf_toDigits (i : Int) :
    powerOf (some (decide (i < 0), Nat.toDigits 10 i.natAbs)) = i := by
  simp only [powerOf, Nat.ofDigitChars_ten_toDigits, decide_eq_true_eq]
  split <;> omega

/-- A number is spelled with an exponent. -/
theorem exists_spells_scientific (hd : 0 < d.coefficient) :
    ∃ s : Spelling, s.chars = Layout.scientific d ∧ s.Spells d ∧ ¬s.isWhole ∧
      s.whole.length = 1 := by
  have hhead := Number.head?_toDigits hd
  have hdigits := d.isDigit_digits
  have hvalue := d.ofDigitChars_digits
  obtain ⟨first, more, hcons⟩ := List.exists_cons_of_ne_nil d.digits_ne_nil
  rw [show Nat.toDigits 10 d.coefficient = first :: more from hcons] at hhead
  rw [hcons] at hdigits hvalue
  have hfirst : ∀ c ∈ [first], c.isDigit := by simpa using hdigits first
  obtain ⟨e, he⟩ : ∃ e : Int, d.digits.length + d.exponent - 1 = e := ⟨_, rfl⟩
  refine ⟨⟨[first], more, some (decide (e < 0), Nat.toDigits 10 e.natAbs), by simp, hfirst, ?_,
    fun c hc => hdigits c (List.mem_cons_of_mem _ hc), ?_, ?_⟩, ?_, ⟨0, ?_, ?_⟩,
    by simp [isWhole], rfl⟩
  · exact fun h => absurd h hhead
  · simp [Nat.toDigits_ne_nil]
  · simpa using Number.isDigit_of_mem_toDigits
  · rw [scientific_eq hcons he]
    simp [chars]
  · simp [coefficient, hvalue]
  · rw [hcons, List.length_cons] at he
    simp only [power, powerOf_toDigits]
    omega

end Spelling

namespace Layout

variable {layout : Layout} {d : Decimal}

/-- The text of a positive decimal is a spelling of it. Its whole part is no longer than that
    of the largest number in positional form. -/
theorem exists_writeDecimal_eq {k : Nat}
    (ha : layout.afterWhole = Spelling.pointed (List.replicate k '0')) (hd : 0 < d.coefficient) :
    ∃ s : Spelling, s.chars = layout.writeDecimal d ∧ s.Spells d ∧ (0 < k → ¬s.isWhole) ∧
      s.whole.length ≤ max 1 layout.limit.toNat := by
  simp only [writeDecimal]
  split
  · rename_i hplace
    simp only [positional]
    split
    · rename_i he
      rw [ha]
      obtain ⟨s, hs, hspells, hw, hlength⟩ :=
        Spelling.exists_spells_whole hd (Int.toNat_of_nonneg he).symm k
      exact ⟨s, hs, hspells, hw, by omega⟩
    · split
      · rename_i hpoint
        obtain ⟨s, hs, hspells, hw, hlength⟩ := Spelling.exists_spells_inside hd
          (Int.pos_iff_toNat_pos.1 hpoint) (by omega) (Int.toNat_of_nonneg hpoint.le)
        exact ⟨s, hs, hspells, fun _ => hw, by omega⟩
      · have hzeros : (d.digits.length + d.exponent : Int) =
            -((-(d.digits.length + d.exponent : Int)).toNat : Int) := by omega
        obtain ⟨s, hs, hspells, hw, hlength⟩ := Spelling.exists_spells_small hzeros
        exact ⟨s, hs, hspells, fun _ => hw, by omega⟩
  · obtain ⟨s, hs, hspells, hw, hlength⟩ := Spelling.exists_spells_scientific hd
    exact ⟨s, hs, hspells, fun _ => hw, by omega⟩

/-- The text of a finite number, behind its sign, is a spelling that stands for it. -/
theorem exists_write_eq {k : Nat}
    (ha : layout.afterWhole = Spelling.pointed (List.replicate k '0')) (negative : Bool)
    (rank : Fin Number.ranks) :
    ∃ s : Spelling, layout.write negative rank.val =
        (if negative && (rank.val ≠ 0 || layout.signedZero) then ['-'] else []) ++ s.chars ∧
      (0 < k → ¬s.isWhole) ∧ s.whole.length ≤ max 1 layout.limit.toNat ∧
      ∀ negative', s.toNumber negative' = .finite negative' rank := by
  by_cases hr : rank.val = 0
  · obtain ⟨s, hs⟩ : ∃ s : Spelling, s = ⟨['0'], List.replicate k '0', none, by simp, by simp,
      by simp, Number.isDigit_of_mem_zeros, by simp, by simp⟩ := ⟨_, rfl⟩
    refine ⟨s, ?_, fun hk => ?_, by simp [hs], fun negative' => ?_⟩
    · simp [write, hr, ha, hs, Spelling.chars, Spelling.powered]
    · simp [hs, Spelling.isWhole, hk.ne']
    · have hc : s.coefficient = 0 := by
        rw [hs, Spelling.coefficient, Nat.ofDigitChars_append, Nat.ofDigitChars_replicate_zero]
        rfl
      rw [Spelling.toNumber, hc, Number.ofDecimal, if_pos rfl, Number.zero,
        Number.ofRank_of_lt negative' (show 0 < Number.ranks by decide)]
      exact congrArg _ (Fin.ext hr.symm)
  · have hpos := Nat.pos_of_ne_zero hr
    have hread := Number.toNumber_shortest hpos rank.isLt layout.tie
    have hin := Number.inRange_of_ofDecimal hpos (hread false)
    obtain ⟨s, hs, ⟨j, hc, hp⟩, hw, hlength⟩ :=
      exists_writeDecimal_eq ha (Nat.pos_of_ne_zero hin.1)
    refine ⟨s, by simp [write, hr, hs], hw, hlength, fun negative' => ?_⟩
    rw [Spelling.toNumber, hc, hp, Number.ofDecimal_mul_pow hin]
    exact hread negative'

end Layout

end Criteria

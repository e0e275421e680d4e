import Criteria.Proofs.Json.Literal
import Criteria.Proofs.Number.Scaling

/-!
# Numbers restored from their texts

The JSON text of a finite number stands for that number, but what is read of it is scaled from
the digits in rounded steps. So every finite number is restored as a finite number, and a whole
number of at most fifteen digits as itself, but not every number is.

* `exists_appendDigits_eq`, `appendDigits_of_lt`: the digits that are kept;
* `Numeral.decimalRank_ofDigits_le`: leaving digits out makes no number larger;
* `Number.restored`, `value?_numeral`: what is read of the text of a number;
* `Number.restored_ofInt`: whole numbers are restored as they are.
-/

namespace Criteria

namespace Json

open Number

variable {digits whole fraction : List Char} {exponent? : Option Int} {negative : Bool} {n : Nat}

/-! ## Digits -/

theorem mul_pow_le_ofDigitChars (n : Nat) (digits : List Char) :
    n * Nat.pow 10 digits.length ≤ Nat.ofDigitChars 10 digits n := by
  induction digits generalizing n with
  | nil => simp
  | cons c digits ih =>
    rw [Nat.ofDigitChars_cons, List.length_cons]
    refine le_trans ?_ (ih _)
    rw [show Nat.pow 10 (digits.length + 1) = 10 * Nat.pow 10 digits.length from
      (Nat.pow_succ 10 _).trans (Nat.mul_comm _ _), ← Nat.mul_assoc, Nat.mul_comm n]
    exact Nat.mul_le_mul_right _ (Nat.le_add_right _ _)

/-- Digits that follow a whole number do not make it larger than the next one with as many
    zeros. -/
theorem ofDigitChars_lt (n : Nat) (hd : ∀ c ∈ digits, c.isDigit) :
    Nat.ofDigitChars 10 digits n < (n + 1) * Nat.pow 10 digits.length := by
  induction digits generalizing n with
  | nil => simp
  | cons c digits ih =>
    obtain ⟨hc, hd⟩ := List.forall_mem_cons.1 hd
    rw [Char.isDigit_iff_toNat] at hc
    simp only [show '0'.toNat = 48 from rfl, show '9'.toNat = 57 from rfl] at hc
    rw [Nat.ofDigitChars_cons, List.length_cons]
    refine (ih _ hd).trans_le ?_
    rw [show Nat.pow 10 (digits.length + 1) = 10 * Nat.pow 10 digits.length from
      (Nat.pow_succ 10 _).trans (Nat.mul_comm _ _), ← Nat.mul_assoc]
    refine Nat.mul_le_mul_right _ ?_
    rw [show '0'.toNat = 48 from rfl]
    omega

/-- The digits that are appended come first, and the others are left. -/
theorem exists_appendDigits_eq (n : Nat) (digits : List Char) :
    ∃ taken, digits = taken ++ (appendDigits n digits).2 ∧
      (appendDigits n digits).1 = Nat.ofDigitChars 10 taken n := by
  induction digits generalizing n with
  | nil => exact ⟨[], rfl, rfl⟩
  | cons c digits ih =>
    rw [appendDigits]
    split
    · obtain ⟨taken, hdigits, hvalue⟩ := ih (10 * n + (c.toNat - '0'.toNat))
      exact ⟨c :: taken, congrArg (c :: ·) hdigits, by rw [hvalue, Nat.ofDigitChars_cons]⟩
    · exact ⟨[], rfl, rfl⟩

/-- Where the whole number with all digits fits, all are appended. -/
theorem appendDigits_of_lt (h : Nat.ofDigitChars 10 digits n < wholeLimit) :
    appendDigits n digits = (Nat.ofDigitChars 10 digits n, []) := by
  induction digits generalizing n with
  | nil => rfl
  | cons c digits ih =>
    rw [Nat.ofDigitChars_cons] at h
    have hnext : 10 * n + (c.toNat - '0'.toNat) < wholeLimit :=
      ((Nat.le_mul_of_pos_right _ (ten_pow_pos _)).trans (mul_pow_le_ofDigitChars _ _)).trans_lt h
    rw [appendDigits, if_pos hnext, ih h, Nat.ofDigitChars_cons]

/-! ## Numerals -/

/-- Where there is room for the whole part, what is kept of the digits is not more than the
    decimal that is written. -/
theorem Numeral.decimalRank_ofDigits_le (hw : Nat.ofDigitChars 10 whole 0 < wholeLimit) :
    decimalRank (ofDigits negative whole fraction exponent?).coefficient
        (ofDigits negative whole fraction exponent?).exponent ≤
      decimalRank (Nat.ofDigitChars 10 (whole ++ fraction) 0)
        (exponent?.getD 0 - fraction.length) := by
  simp only [ofDigits, appendDigits_of_lt hw]
  obtain ⟨taken, hfraction, hvalue⟩ := exists_appendDigits_eq (Nat.ofDigitChars 10 whole 0) fraction
  generalize (appendDigits (Nat.ofDigitChars 10 whole 0) fraction).2 = left at *
  -- Zeros in the place of the digits that are left out make the two exponents equal.
  have hle : Nat.ofDigitChars 10 taken (Nat.ofDigitChars 10 whole 0) * Nat.pow 10 left.length ≤
      Nat.ofDigitChars 10 (whole ++ fraction) 0 := by
    rw [hfraction, ← List.append_assoc, Nat.ofDigitChars_append, Nat.ofDigitChars_append]
    exact mul_pow_le_ofDigitChars _ left
  have hlength : fraction.length = taken.length + left.length := by
    rw [hfraction, List.length_append]
  have hexponent : exponent?.getD 0 + (([] : List Char).length : Int) -
      ((fraction.length - left.length : Nat) : Int) - left.length =
        exponent?.getD 0 - fraction.length := by
    rw [List.length_nil]
    omega
  rw [hvalue, ← decimalRank_mul_pow _ _ left.length, hexponent]
  exact nearestRank_le_of_le _ (Nat.mul_le_mul_right _ hle)

/-- Where there is room for all digits, the decimal that is written is kept. -/
theorem Numeral.ofDigits_of_lt (h : Nat.ofDigitChars 10 (whole ++ fraction) 0 < wholeLimit) :
    (ofDigits negative whole fraction exponent?).coefficient =
        Nat.ofDigitChars 10 (whole ++ fraction) 0 ∧
      (ofDigits negative whole fraction exponent?).exponent =
        exponent?.getD 0 - fraction.length := by
  rw [Nat.ofDigitChars_append] at h ⊢
  have hwhole : Nat.ofDigitChars 10 whole 0 < wholeLimit :=
    ((Nat.le_mul_of_pos_right _ (ten_pow_pos _)).trans (mul_pow_le_ofDigitChars _ _)).trans_lt h
  simp only [ofDigits, appendDigits_of_lt hwhole, appendDigits_of_lt h, List.length_nil,
    Nat.sub_zero, Int.natCast_zero, Int.add_zero, and_self]

/-- What is not written as an integer is read as a finite number, if it is read. -/
theorem Numeral.exists_of_isSome {numeral : Numeral} (hw : numeral.whole = false)
    (h : numeral.value?.isSome) : ∃ y : Number, y.isFinite ∧ numeral.value? = some (.float y) := by
  simp only [value?, hw, Bool.false_eq_true, false_and, if_false] at h ⊢
  split
  · rename_i hfinite
    exact ⟨_, hfinite, rfl⟩
  · rename_i hfinite
    simp [hfinite] at h

/-- The text of a finite number is not written as an integer, and stands for the number with at
    least as much as is kept of its digits. -/
theorem exists_numeral_eq (negative : Bool) (rank : Fin ranks) :
    ∃ s : Spelling, (Num.float (.finite negative rank)).numeral = s.numeral negative ∧
      (s.numeral negative).whole = false ∧ s.toNumber negative = .finite negative rank ∧
      decimalRank (s.numeral negative).coefficient (s.numeral negative).exponent ≤ rank.val := by
  obtain ⟨s, hs, hwhole, hlength, hread⟩ := exists_chars_eq negative rank
  have hnumber := hread negative
  rw [Spelling.toNumber, ofDecimal_eq_ofRank] at hnumber
  have hrank := (ofRank_eq_finite hnumber).1
  have hpower : (s.exponent.map fun e => Spelling.powerOf (some e)).getD 0 - s.fraction.length =
      s.power := by
    rw [Spelling.power]
    cases s.exponent <;> rfl
  have hlt : Nat.ofDigitChars 10 s.whole 0 < wholeLimit := by
    refine (ofDigitChars_lt 0 s.isDigit_whole).trans_le ?_
    rw [Nat.zero_add, Nat.one_mul]
    exact (ten_pow_le_ten_pow hlength).trans (by decide)
  refine ⟨s, numeral_of_chars_eq hs, ?_, hread negative, ?_⟩
  · simp only [Spelling.isWhole, Bool.and_eq_true, not_and] at hwhole
    simp only [Spelling.numeral, Numeral.ofDigits, Option.isNone_map]
    cases hfraction : decide (s.fraction = []) with
    | false => rfl
    | true => simp [hwhole hfraction]
  · have hle := @Numeral.decimalRank_ofDigits_le s.whole s.fraction
      (s.exponent.map fun e => Spelling.powerOf (some e)) negative hlt
    rw [hpower] at hle
    exact hle.trans_eq hrank

/-- The text of a finite number is read as a finite number. -/
theorem exists_value?_numeral {x : Number} (hx : x.isFinite) :
    ∃ y : Number, y.isFinite ∧ (Num.float x).numeral.value? = some (.float y) := by
  cases x with
  | nan => simp [isFinite] at hx
  | infinite negative => simp [isFinite] at hx
  | finite negative rank =>
    obtain ⟨s, hs, hwhole, -, hrank⟩ := exists_numeral_eq negative rank
    rw [← hs] at hwhole hrank
    refine Numeral.exists_of_isSome hwhole ?_
    rcases Nat.lt_or_ge rank.val (ranks - 2) with hlt | hge
    · have hfinite := isFinite_ofScaled (Num.float (.finite negative rank)).numeral.negative
        (Num.float (.finite negative rank)).numeral.fits (hrank.trans_lt hlt)
      simp only [Numeral.value?, hwhole, Bool.false_eq_true, false_and, if_false, hfinite, if_true,
        Option.isSome_some]
    · -- The texts of the two largest numbers are read.
      have hlargest : ∀ negative : Bool, ∀ i : Fin 2,
          ((Num.float (ofRank negative (ranks - 2 + i.val))).numeral.value?).isSome := by
        decide +kernel
      have := rank.isLt
      have h := hlargest negative ⟨rank.val - (ranks - 2), by omega⟩
      rwa [show ranks - 2 + (rank.val - (ranks - 2)) = rank.val by omega,
        ofRank_of_lt negative rank.isLt] at h

end Json

namespace Number

open Json

/-- The number that is read of the JSON text of a number. What is not finite has no text, and
    is kept. -/
def restored (x : Number) : Number :=
  match (Num.float x).numeral.value? with
  | some (.float y) => y
  | _ => x

variable {x : Number}

theorem value?_numeral (hx : x.isFinite) :
    (Num.float x).numeral.value? = some (.float x.restored) := by
  obtain ⟨y, -, hvalue⟩ := exists_value?_numeral hx
  rw [restored, hvalue]

/-- Every finite number is restored as a finite one. -/
theorem isFinite_restored (hx : x.isFinite) : x.restored.isFinite := by
  obtain ⟨y, hy, hvalue⟩ := exists_value?_numeral hx
  rwa [restored, hvalue]

/-! ## Whole numbers -/

variable {n : Nat} {rank : Fin ranks}

theorem nearestRank_of_ofDecimal (hr : 0 < rank.val)
    (h : ofDecimal false n 0 = .finite false rank) : nearestRank n 1 = rank.val := by
  rw [ofDecimal_of_inRange (inRange_of_ofDecimal hr h), decimalRank_zero] at h
  exact (ofRank_eq_finite h).1

/-- The shortest decimal of a whole number of at most fifteen digits is that number, without some
    of its zeros. -/
theorem exists_shortest_eq (hr : 0 < rank.val) (h : ofDecimal false n 0 = .finite false rank)
    (hlt : n < 10 ^ 15) (tie : Tie) :
    ∃ zeros : Nat, (shortest tie rank.val).exponent = zeros ∧
      (shortest tie rank.val).coefficient * Nat.pow 10 zeros = n := by
  obtain ⟨zeros, hzeros⟩ := Int.eq_ofNat_of_zero_le (exponent_shortest_nonneg hr h tie)
  refine ⟨zeros, hzeros, ?_⟩
  have hread := toNumber_shortest hr rank.isLt tie false
  rw [Decimal.toNumber, hzeros] at hread
  rw [← ofDecimal_mul_pow (inRange_of_ofDecimal hr hread) zeros, Int.sub_self] at hread
  generalize (shortest tie rank.val).coefficient * Nat.pow 10 zeros = m at hread ⊢
  have hm : m < 2 ^ 53 := by
    by_contra hge
    have h₁ := nearestRank_le_of_le 1 (Nat.le_of_not_lt hge)
    have h₂ := nearestRank_le_of_le 1 hlt.le
    have h₃ : nearestRank (10 ^ 15) 1 < nearestRank (2 ^ 53) 1 := by decide +kernel
    rw [nearestRank_of_ofDecimal hr hread] at h₁
    rw [nearestRank_of_ofDecimal hr h] at h₂
    omega
  have hunits := units_of_ofDecimal_of_lt hr hread hm
  rw [units_of_ofDecimal_of_lt hr h (hlt.trans (by decide)), Nat.shiftLeft_eq,
    Nat.shiftLeft_eq] at hunits
  exact (Nat.eq_of_mul_eq_mul_right (Nat.two_pow_pos _) hunits).symm

/-- A whole number of at most fifteen digits is written with its digits. -/
theorem chars_of_whole (hr : 0 < rank.val) (h : ofDecimal false n 0 = .finite false rank)
    (hlt : n < 10 ^ 15) (negative : Bool) :
    (Num.float (.finite negative rank)).chars =
      (if negative then ['-'] else []) ++ (Nat.toDigits 10 n ++ ['.', '0']) := by
  obtain ⟨zeros, hexponent, hn⟩ := exists_shortest_eq hr h hlt .even
  have hdigits : (shortest .even rank.val).digits ++ List.replicate zeros '0' =
      Nat.toDigits 10 n := by
    have hpos : 0 < (shortest .even rank.val).coefficient := by
      refine Nat.pos_of_ne_zero fun hzero => (inRange_of_ofDecimal hr h).1 ?_
      rw [← hn, hzero, Nat.zero_mul]
    rw [← hn, toDigits_mul_pow hpos, Decimal.digits]
  have hlength : (Nat.toDigits 10 n).length ≤ 15 :=
    (Nat.length_toDigits_le_iff (by decide) (by decide)).2 hlt
  rw [← hdigits, List.length_append, List.length_replicate] at hlength
  have hplace : layout.least ≤ (shortest .even rank.val).digits.length + (zeros : Int) - 1 ∧
      (shortest .even rank.val).digits.length + (zeros : Int) - 1 < layout.limit := by
    simp only [layout]
    omega
  rw [Num.chars, Layout.write, if_neg hr.ne', ← hdigits]
  simp only [Layout.writeDecimal, show layout.tie = .even from rfl, hexponent, if_pos hplace,
    Layout.positional, Int.natCast_nonneg, if_true, Int.toNat_natCast]
  rfl

/-- A whole number of at most fifteen digits has a place among the finite numbers. -/
theorem exists_ofDecimal_eq (hpos : 0 < n) (hlt : n < 10 ^ 15) :
    ∃ rank : Fin ranks, 0 < rank.val ∧
      ∀ negative, ofDecimal negative n 0 = .finite negative rank := by
  have hlow := nearestRank_le_of_le 1 hpos
  have hhigh := nearestRank_le_of_le 1 hlt.le
  have hone : 0 < nearestRank (0 + 1) 1 := by decide +kernel
  have hlimit : nearestRank (10 ^ 15) 1 < ranks := by decide +kernel
  refine ⟨⟨nearestRank n 1, by omega⟩, hone.trans_le hlow, fun negative => ?_⟩
  rw [ofDecimal_of_inRange ⟨hpos.ne', by decide, by omega⟩, decimalRank_zero, ofRank_of_lt]

/-- What is read of a whole number of at most fifteen digits, with a point and a zero behind it, is
    that number: ten times the number is exact, and only the division rounds. -/
theorem value?_whole (hpos : 0 < n) (hlt : n < 10 ^ 15) (negative : Bool) {rank : Fin ranks}
    (h : ofDecimal negative n 0 = .finite negative rank) :
    (Numeral.ofDigits negative (Nat.toDigits 10 n) ['0'] none).value? =
      some (.float (.finite negative rank)) := by
  have hcoefficient : Nat.ofDigitChars 10 (Nat.toDigits 10 n ++ ['0']) 0 = n * 10 := by
    rw [Nat.ofDigitChars_append, Nat.ofDigitChars_ten_toDigits, Nat.ofDigitChars_cons,
      Nat.ofDigitChars_nil, Nat.mul_comm]
    rfl
  have hfits : n * 10 < wholeLimit := by
    simp only [wholeLimit]
    omega
  obtain ⟨hc, he⟩ := @Numeral.ofDigits_of_lt (Nat.toDigits 10 n) ['0'] none negative
    (hcoefficient ▸ hfits)
  have hexact : IsExact (n * 10) := by
    have := @isExact_of_lt (n * 5) 1 (by omega)
    rwa [Nat.mul_assoc] at this
  have hscaled : ofScaled negative (n * 10) (-1) = .finite negative rank := by
    rw [ofScaled_eq_ofDecimal negative hexact (by decide)]
    exact (ofDecimal_mul_pow ⟨hpos.ne', by decide, by omega⟩ 1).trans h
  rw [hcoefficient] at hc
  rw [Numeral.value?, hc, he]
  simp only [show (Numeral.ofDigits negative (Nat.toDigits 10 n) ['0'] none).whole = false from rfl,
    show (Numeral.ofDigits negative (Nat.toDigits 10 n) ['0'] none).negative = negative from rfl,
    Bool.false_eq_true, false_and, if_false]
  rw [if_pos]
  · exact congrArg (fun x => some (Num.float x)) hscaled
  · exact (congrArg isFinite hscaled).trans rfl

/-- Whole numbers of at most fifteen digits are restored as they are. -/
theorem restored_ofInt {i : Int} (h : i.natAbs < 10 ^ 15) : (ofInt i).restored = ofInt i := by
  rcases Nat.eq_zero_or_pos i.natAbs with hzero | hpos
  · rw [Int.natAbs_eq_zero.1 hzero]
    decide +kernel
  · obtain ⟨rank, hr, hrank⟩ := exists_ofDecimal_eq hpos h
    -- The text is spelled with the digits, a point and a zero.
    have hspelled : ∃ s : Spelling, s.chars = Nat.toDigits 10 i.natAbs ++ ['.', '0'] ∧
        ∀ negative, s.numeral negative =
          .ofDigits negative (Nat.toDigits 10 i.natAbs) ['0'] none := by
      refine ⟨⟨Nat.toDigits 10 i.natAbs, ['0'], none, Nat.toDigits_ne_nil,
        isDigit_of_mem_toDigits, fun hhead => absurd hhead (head?_toDigits hpos), by simp,
        by simp, by simp⟩, ?_, fun _ => rfl⟩
      simp [Spelling.chars, Spelling.pointed, Spelling.powered]
    obtain ⟨s, hs, hnumeral⟩ := hspelled
    have hchars := chars_of_whole hr (hrank false) h (i < 0)
    rw [← hs] at hchars
    rw [ofInt, hrank, restored, numeral_of_chars_eq hchars, hnumeral,
      value?_whole hpos h (i < 0) (hrank _)]

/-- The text of 3e23 has a digit and a power of ten, and three times that power is rounded once
    more. -/
example : (ofDecimal false 3 23).restored ≠ ofDecimal false 3 23 := by
  decide +kernel

end Number

end Criteria

import Criteria.Number.Scaling
import Criteria.Proofs.Number.Nearest

/-!
# Numbers by scaling

A whole number that is scaled by a power of ten in rounded steps becomes the number nearest to
the decimal where each step is exact. In general it is only near it; but it is finite where the
decimal is nearest to a finite number, apart from the two largest.

* `isFinite_ofScaled`: where the result is finite;
* `ofScaled_eq_ofDecimal`: where it is the number nearest to the decimal.
-/

namespace Criteria.Number

variable {a b c d : Nat} {k n : Nat} {e : Int}

/-! ## Single steps -/

theorem units_le_units (h : a ≤ b) : units a ≤ units b := strictMono_units.monotone h

theorem ten_pow_le_ten_pow (h : k ≤ n) : Nat.pow 10 k ≤ Nat.pow 10 n :=
  Nat.pow_le_pow_right (by decide) h

theorem powerOfTen_le_powerOfTen (h : k ≤ n) : powerOfTen k ≤ powerOfTen n :=
  nearestRank_le_of_le 1 (ten_pow_le_ten_pow h)

theorem product_le_product (ha : a ≤ c) (hb : b ≤ d) : product a b ≤ product c d :=
  nearestRank_le_of_le _ (Nat.mul_le_mul (units_le_units ha) (units_le_units hb))

/-- The powers of ten are not less than one. -/
theorem one_le_units_powerOfTen (k : Nat) : 1 <<< 1074 ≤ units (powerOfTen k) := by
  have hone : units (nearestRank 1 1) = 1 <<< 1074 := by decide +kernel
  rw [← hone]
  exact units_le_units (nearestRank_le_of_le 1 (ten_pow_pos k))

theorem shiftLeft_eq_mul (m n : Nat) : m <<< n = (1 <<< n) * m := by
  rw [Nat.shiftLeft_eq, Nat.shiftLeft_eq, Nat.one_mul, Nat.mul_comm]

/-- What is divided by a power of ten does not grow. -/
theorem quotient_powerOfTen_le (a k : Nat) : quotient a (powerOfTen k) ≤ a := by
  have hself : nearestRank (units a) (1 <<< 1074) = a :=
    nearestRank_of_units (by decide) (shiftLeft_eq_mul (units a) 1074)
  have hpower := one_le_units_powerOfTen k
  calc quotient a (powerOfTen k) ≤ nearestRank (units a) (1 <<< 1074) :=
        nearestRank_le_nearestRank (Nat.lt_of_lt_of_le (by decide) hpower) (by decide)
          (Nat.mul_le_mul_left _ hpower)
    _ = a := hself

theorem shrink_le (times a : Nat) : shrink times a ≤ a := by
  induction times generalizing a with
  | zero => exact Nat.le_refl a
  | succ times ih =>
    rw [shrink]
    split
    · exact Nat.zero_le a
    · exact (ih _).trans (quotient_powerOfTen_le a largestPower)

/-! ## Finite results -/

/-- The second largest magnitude of all, which is a whole number. -/
def secondLargest : Nat := units (ranks - 2) >>> 1074

theorem nearestRank_secondLargest : nearestRank secondLargest 1 = ranks - 2 := by decide +kernel

/-- With a small power of ten, every coefficient of 64 bits has a finite product. -/
theorem product_powerOfTen_lt (hc : c < wholeLimit) (hk : k ≤ 288) :
    product (nearestRank c 1) (powerOfTen k) < ranks := by
  have hlargest : product (nearestRank wholeLimit 1) (powerOfTen 288) < ranks := by
    decide +kernel
  exact (product_le_product (nearestRank_le_of_le 1 hc.le)
    (powerOfTen_le_powerOfTen hk)).trans_lt hlargest

/-- With a large one, so has every coefficient whose decimal is below the second largest
    magnitude. There are few such powers, and the largest coefficient of each is tried. -/
theorem product_powerOfTen_lt_of_lt (hlow : 288 < k) (hhigh : k ≤ largestPower)
    (h : nearestRank (c * Nat.pow 10 k) 1 < ranks - 2) :
    product (nearestRank c 1) (powerOfTen k) < ranks := by
  have hall : ∀ i < 20, product (nearestRank (secondLargest / Nat.pow 10 (289 + i)) 1)
      (powerOfTen (289 + i)) < ranks := by decide +kernel
  have hle : c ≤ secondLargest / Nat.pow 10 k := by
    rw [Nat.le_div_iff_mul_le (ten_pow_pos k)]
    refine Nat.le_of_not_lt fun hlt => ?_
    have hle := nearestRank_le_of_le 1 hlt.le
    rw [nearestRank_secondLargest] at hle
    exact Nat.not_lt.2 hle h
  refine (product_le_product (nearestRank_le_of_le 1 hle) (Nat.le_refl _)).trans_lt ?_
  obtain ⟨i, rfl⟩ : ∃ i, k = 289 + i := ⟨k - 289, by omega⟩
  exact hall i (by rw [largestPower] at hhigh; omega)

theorem isFinite_ofRank {rank : Nat} (negative : Bool) (h : rank < ranks) :
    (ofRank negative rank).isFinite := by
  rw [ofRank_of_lt negative h]
  rfl

/-- What a coefficient of 64 bits is scaled to is finite if the decimal is nearest to a finite
    number, apart from the two largest. -/
theorem isFinite_ofScaled (negative : Bool) (hc : c < wholeLimit)
    (h : decimalRank c e < ranks - 2) : (ofScaled negative c e).isFinite := by
  have hwhole : nearestRank c 1 < ranks :=
    (nearestRank_le_of_le 1 hc.le).trans_lt (by decide +kernel)
  rw [ofScaled]
  split
  · exact isFinite_ofRank negative (by decide)
  · rename_i hne
    split
    · exact isFinite_ofRank negative
        (((quotient_powerOfTen_le _ _).trans (shrink_le _ _)).trans_lt hwhole)
    · obtain ⟨k, rfl⟩ : ∃ k : Nat, e = k := ⟨e.toNat, by omega⟩
      have hrank : decimalRank c k = nearestRank (c * Nat.pow 10 k) 1 := by simp [decimalRank]
      rw [hrank] at h
      split
      · -- The decimal would be beyond the finite numbers.
        rename_i hlarge
        have hpos : 0 < c := by
          refine Nat.pos_of_ne_zero fun hzero => hne ?_
          rw [hzero]
          decide +kernel
        have hbeyond : ranks ≤ nearestRank (Nat.pow 10 (largestPower + 1)) 1 := by decide +kernel
        have hpower : Nat.pow 10 (largestPower + 1) ≤ c * Nat.pow 10 k :=
          (ten_pow_le_ten_pow (by omega)).trans (Nat.le_mul_of_pos_left _ hpos)
        have hle := nearestRank_le_of_le 1 hpower
        omega
      · rw [Int.toNat_natCast]
        refine isFinite_ofRank negative ?_
        rcases Nat.lt_or_ge 288 k with hk | hk
        · exact product_powerOfTen_lt_of_lt hk (by omega) h
        · exact product_powerOfTen_lt hc hk

/-! ## Exact steps -/

/-- A whole number that is a magnitude. -/
def IsExact (n : Nat) : Prop := units (nearestRank n 1) = n <<< 1074

instance : DecidablePred IsExact := fun _ => inferInstanceAs (Decidable (_ = _))

/-- A whole number of at most 53 bits, with zeros behind them, is a magnitude. -/
theorem isExact_of_lt {n j : Nat} (h : n < 2 ^ 53) : IsExact (n * 2 ^ j) := by
  rcases Nat.eq_zero_or_pos n with rfl | hpos
  · rw [Nat.zero_mul]
    decide +kernel
  · obtain ⟨rank, hrank⟩ := exists_units_eq hpos h (show 52 ≤ j + 1074 by omega)
    have hunits : units rank = (n * 2 ^ j) <<< 1074 := by
      rw [hrank, Nat.shiftLeft_add, Nat.shiftLeft_eq n]
    have hnearest : nearestRank (n * 2 ^ j) 1 = rank :=
      nearestRank_of_units Nat.one_pos (by rw [Nat.one_mul, hunits])
    rw [IsExact, hnearest, hunits]

theorem units_powerOfTen (hk : k ≤ 22) : units (powerOfTen k) = Nat.pow 10 k <<< 1074 := by
  have hall : ∀ k < 23, units (powerOfTen k) = Nat.pow 10 k <<< 1074 := by decide +kernel
  exact hall k (Nat.lt_succ_of_le hk)

theorem nearestRank_shiftLeft (m n s : Nat) :
    nearestRank (m <<< s) (n <<< s) = nearestRank m n := by
  rw [Nat.shiftLeft_eq, Nat.shiftLeft_eq, nearestRank_mul (Nat.two_pow_pos s)]

/-- A magnitude is scaled by a small power of ten to the number nearest to the decimal: only
    the last step is rounded. -/
theorem ofScaled_eq_ofDecimal (negative : Bool) (hc : IsExact c) (he : e.natAbs ≤ 22) :
    ofScaled negative c e = ofDecimal negative c e := by
  rw [IsExact] at hc
  rw [ofScaled, ofDecimal_eq_ofRank]
  split
  · rename_i hzero
    have hc : c = 0 := by
      rw [hzero, show units 0 = 0 from rfl] at hc
      exact Nat.shiftLeft_eq_zero_iff.1 hc.symm
    rw [hc, decimalRank_zero_left, zero]
  · split
    · obtain ⟨k, rfl⟩ : ∃ k : Nat, e = -(k : Int) := ⟨(-e).toNat, by omega⟩
      have hsize : (- -(k : Int)).toNat = k := by omega
      have htimes : (k - 1) / largestPower = 0 := Nat.div_eq_of_lt (by rw [largestPower]; omega)
      simp only [hsize, htimes, shrink, Nat.zero_mul, Nat.sub_zero]
      rw [quotient, hc, units_powerOfTen (by omega), nearestRank_shiftLeft]
      simp [decimalRank]
    · obtain ⟨k, rfl⟩ : ∃ k : Nat, e = k := ⟨e.toNat, by omega⟩
      rw [if_neg (by rw [largestPower]; omega), Int.toNat_natCast, product, hc,
        units_powerOfTen (by omega)]
      have hproduct : c <<< 1074 * Nat.pow 10 k <<< 1074 = (c * Nat.pow 10 k) <<< 2148 := by
        rw [show 2148 = 1074 + 1074 from rfl, Nat.shiftLeft_add]
        generalize 1074 = s
        rw [Nat.shiftLeft_eq, Nat.shiftLeft_eq, Nat.shiftLeft_eq, Nat.shiftLeft_eq]
        ring
      rw [hproduct, nearestRank_shiftLeft]
      simp [decimalRank]

end Criteria.Number

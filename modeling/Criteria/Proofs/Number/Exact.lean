import Criteria.Number.Basic
import Mathlib.Tactic.Ring

/-!
# Exact magnitudes

Ranks count the magnitudes that a number can have exactly, and what is exactly a
magnitude is read as the number of that rank.

* `rankBelow_units`: a magnitude has its own rank;
* `nearestRank_of_units`: a ratio that is a magnitude has its rank;
* `nearestRank_mul`: the nearest rank depends on the ratio alone;
* `ofDecimal_mul_pow`: a decimal reads as the same number with more zeros.
-/

namespace Criteria.Number

/-! ## Significands -/

/-- The significand of a rank: its magnitude in units of its scale. -/
def significand (rank : Nat) : Nat := rank - scale rank * binade

theorem units_eq (rank : Nat) : units rank = significand rank * 2 ^ scale rank :=
  Nat.shiftLeft_eq _ _

theorem rank_eq (rank : Nat) : rank = scale rank * binade + significand rank := by
  have := Nat.div_mul_le_self rank binade
  have : scale rank * binade ≤ rank / binade * binade :=
    Nat.mul_le_mul_right _ (Nat.sub_le _ _)
  rw [significand]
  omega

theorem significand_lt (rank : Nat) : significand rank < 2 * binade := by
  have := Nat.mod_lt rank (show 0 < binade by decide)
  have := Nat.div_add_mod rank binade
  simp only [significand, scale, binade] at *
  omega

/-- Above the least scale, a significand fills all its bits. -/
theorem le_significand {rank : Nat} (h : scale rank ≠ 0) : binade ≤ significand rank := by
  have := Nat.div_add_mod rank binade
  simp only [significand, scale, binade] at *
  omega

theorem significand_pos {rank : Nat} (h : 0 < rank) : 0 < significand rank := by
  simp only [significand, scale, binade] at *
  omega

theorem scale_le {rank : Nat} (h : rank < ranks) : scale rank ≤ 2045 := by
  simp only [scale, ranks, binade] at *
  omega

/-- Magnitudes grow with their ranks. -/
theorem units_lt_succ (rank : Nat) : units rank < units (rank + 1) := by
  have hlt := significand_lt rank
  have hpos := Nat.two_pow_pos (scale rank)
  rw [units_eq, units_eq]
  by_cases hs : scale (rank + 1) = scale rank
  · have : significand (rank + 1) = significand rank + 1 := by
      have := rank_eq rank
      have := rank_eq (rank + 1)
      rw [hs] at this
      omega
    rw [hs, this]
    exact Nat.mul_lt_mul_of_pos_right (Nat.lt_succ_self _) hpos
  · -- The next rank is the first of the next scale.
    have hs : scale (rank + 1) = scale rank + 1 := by
      simp only [scale, binade] at *
      omega
    have : binade ≤ significand (rank + 1) := le_significand (by omega)
    rw [hs, pow_succ]
    calc significand rank * 2 ^ scale rank < 2 * binade * 2 ^ scale rank :=
          Nat.mul_lt_mul_of_pos_right hlt hpos
      _ = binade * (2 ^ scale rank * 2) := by ring
      _ ≤ _ := Nat.mul_le_mul_right _ this

/-! ## Ranks of magnitudes -/

/-- A significand at a scale has the rank that is made of both. -/
theorem rankBelow_mul_pow {m s : Nat} (hlt : m < 2 * binade) (hle : binade ≤ m ∨ s = 0) :
    rankBelow (m * 2 ^ s) = s * binade + m := by
  have hpos := Nat.two_pow_pos s
  have hlog : (m * 2 ^ s).log2 - 52 = s := by
    rcases hle with hle | rfl
    · have hlow : binade * 2 ^ s ≤ m * 2 ^ s := Nat.mul_le_mul_right _ hle
      have hhigh : m * 2 ^ s < 2 * binade * 2 ^ s := Nat.mul_lt_mul_of_pos_right hlt hpos
      have hne : m * 2 ^ s ≠ 0 := by
        have : 0 < binade * 2 ^ s := Nat.mul_pos (by decide) hpos
        omega
      rw [show binade = 2 ^ 52 by decide, ← pow_add] at hlow
      rw [show 2 * binade = 2 ^ 53 by decide, ← pow_add] at hhigh
      have : (m * 2 ^ s).log2 = 52 + s :=
        (Nat.log2_eq_iff hne).2 ⟨hlow, by rwa [Nat.add_right_comm]⟩
      omega
    · rw [pow_zero, Nat.mul_one]
      by_cases hm : m = 0
      · subst hm
        decide
      · have : m.log2 < 53 := (Nat.log2_lt hm).2 hlt
        omega
  simp only [rankBelow, hlog, Nat.shiftRight_eq_div_pow, Nat.mul_div_cancel _ hpos]

theorem rankBelow_units (rank : Nat) : rankBelow (units rank) = rank := by
  rw [units_eq, rankBelow_mul_pow (significand_lt rank), ← rank_eq]
  by_cases h : scale rank = 0
  · exact .inr h
  · exact .inl (le_significand h)

/-- A ratio that is a magnitude has the rank of that magnitude. -/
theorem nearestRank_of_units {num den rank : Nat} (hd : 0 < den)
    (h : num <<< 1074 = den * units rank) : nearestRank num den = rank := by
  have hlow : num <<< 1074 / den = units rank := by rw [h, Nat.mul_div_cancel_left _ hd]
  have hlt : 2 * (num <<< 1074) < den * (units rank + units (rank + 1)) := by
    rw [h, ← Nat.mul_assoc, Nat.mul_comm 2, Nat.mul_assoc]
    have := units_lt_succ rank
    exact Nat.mul_lt_mul_of_pos_left (by omega) hd
  simp only [nearestRank, hlow, rankBelow_units, if_pos hlt]

/-- The nearest rank depends on the ratio alone. -/
theorem nearestRank_mul {num den k : Nat} (hk : 0 < k) :
    nearestRank (num * k) (den * k) = nearestRank num den := by
  have hscaled : (num * k) <<< 1074 = num <<< 1074 * k := by
    rw [Nat.shiftLeft_eq, Nat.shiftLeft_eq, Nat.mul_right_comm]
  have hmiddle (n : Nat) : den * k * n = den * n * k := by ring
  simp only [nearestRank, hscaled, Nat.mul_div_mul_right _ _ hk, hmiddle, ← Nat.mul_assoc,
    Nat.mul_lt_mul_right hk]

/-! ## Decimals -/

/-- The rank nearest to `c * 10 ^ e`. -/
def decimalRank (c : Nat) (e : Int) : Nat :=
  nearestRank (c * Nat.pow 10 e.toNat) (Nat.pow 10 (-e).toNat)

theorem ten_pow_pos (n : Nat) : 0 < Nat.pow 10 n := Nat.pow_pos (by decide)

theorem ten_pow_add (m n : Nat) : Nat.pow 10 (m + n) = Nat.pow 10 m * Nat.pow 10 n :=
  Nat.pow_add 10 m n

/-- The rank of a decimal does not change with zeros appended to its coefficient. -/
theorem decimalRank_mul_pow (c : Nat) (e : Int) (j : Nat) :
    decimalRank (c * Nat.pow 10 j) (e - j) = decimalRank c e := by
  -- The zeros that are not taken out of the exponent are common to both sides of the ratio.
  obtain ⟨k, hnum, hden⟩ : ∃ k : Nat, j + (e - j).toNat = e.toNat + k ∧
      (-(e - j)).toNat = (-e).toNat + k := ⟨(-(e - j)).toNat - (-e).toNat, by omega, by omega⟩
  rw [decimalRank, Nat.mul_assoc, ← ten_pow_add, hnum, hden, ten_pow_add, ten_pow_add,
    ← Nat.mul_assoc, nearestRank_mul (ten_pow_pos k), decimalRank]

theorem ofRank_of_lt {rank : Nat} (negative : Bool) (h : rank < ranks) :
    ofRank negative rank = .finite negative ⟨rank, h⟩ := dif_pos h

theorem ofRank_eq_finite {negative negative' : Bool} {n : Nat} {rank : Fin ranks}
    (h : ofRank negative n = .finite negative' rank) : n = rank ∧ negative = negative' := by
  rw [ofRank] at h
  split at h
  · obtain ⟨rfl, rfl⟩ := Number.finite.inj h
    exact ⟨rfl, rfl⟩
  · simp at h

/-- The exponents for which a decimal is read by rounding its ratio. -/
def InRange (c : Nat) (e : Int) : Prop := c ≠ 0 ∧ e ≤ 400 ∧ 0 ≤ e + c.log2 + 1200

theorem ofDecimal_of_inRange {c : Nat} {e : Int} (h : InRange c e) (negative : Bool) :
    ofDecimal negative c e = ofRank negative (decimalRank c e) := by
  obtain ⟨hc, he, hl⟩ := h
  rw [ofDecimal, if_neg hc, if_neg (by omega), if_neg (by omega)]
  rfl

/-- Only zero and infinite numbers are read without rounding. -/
theorem inRange_of_ofDecimal {negative negative' : Bool} {c : Nat} {e : Int} {rank : Fin ranks}
    (hr : 0 < rank.val) (h : ofDecimal negative c e = .finite negative' rank) : InRange c e := by
  have hzero : zero negative ≠ .finite negative' rank := fun h => by
    have := (ofRank_eq_finite h).1
    omega
  rw [ofDecimal] at h
  split at h
  · exact absurd h hzero
  · split at h
    · simp at h
    · split at h
      · exact absurd h hzero
      · exact ⟨‹_›, by omega, by omega⟩

theorem InRange.mul_pow {c : Nat} {e : Int} (h : InRange c e) (j : Nat) :
    InRange (c * Nat.pow 10 j) (e - j) := by
  obtain ⟨hc, he, hl⟩ := h
  have hne : c * Nat.pow 10 j ≠ 0 := Nat.mul_ne_zero hc (ten_pow_pos j).ne'
  have hlog : c.log2 + j ≤ (c * Nat.pow 10 j).log2 := by
    rw [Nat.le_log2 hne, pow_add]
    exact Nat.mul_le_mul (Nat.log2_self_le hc) (Nat.pow_le_pow_left (by decide) j)
  exact ⟨hne, by omega, by omega⟩

/-- A decimal reads as the same number with zeros appended to its coefficient. -/
theorem ofDecimal_mul_pow {negative : Bool} {c : Nat} {e : Int} (h : InRange c e) (j : Nat) :
    ofDecimal negative (c * Nat.pow 10 j) (e - j) = ofDecimal negative c e := by
  rw [ofDecimal_of_inRange (h.mul_pow j), ofDecimal_of_inRange h, decimalRank_mul_pow]

end Criteria.Number

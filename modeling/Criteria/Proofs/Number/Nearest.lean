import Criteria.Proofs.Number.Whole
import Mathlib.Data.Nat.Dist
import Mathlib.Order.Monotone.Basic

/-!
# Nearest numbers

A decimal is read as the number nearest to it: no magnitude is nearer, and of two that are
equally near it is the one with the even rank. There is one such number for every decimal,
however long its coefficient and however large its exponent.

* `units_rankBelow_le`, `lt_units_rankBelow`: the magnitudes around a number of units;
* `IsNearestRank`, `isNearestRank_iff`: the rank nearest to a ratio;
* `nearestRank_le_nearestRank`: larger ratios have no smaller ranks;
* `ofDecimal_eq_ofRank`: where the exponent is not computed with, the result is the same;
* `IsNearest`, `isNearest_iff`: the number nearest to a decimal.
-/

namespace Criteria.Number

/-! ## Magnitudes in order -/

theorem strictMono_units : StrictMono units := strictMono_nat_of_lt_succ units_lt_succ

/-- A significand at a scale, in units. The first one that is too large for the scale is
    still counted in the same way. -/
theorem units_of_le {m s : Nat} (hle : m ≤ 2 * binade) (h : binade ≤ m ∨ s = 0) :
    units (s * binade + m) = m * 2 ^ s := by
  rcases Nat.lt_or_eq_of_le hle with hlt | rfl
  · rcases h with h | rfl
    · exact units_of_significand hlt h
    · have hs : scale m = 0 := by
        simp only [scale, binade] at *
        omega
      rw [Nat.zero_mul, Nat.zero_add, units_eq, significand, hs, Nat.zero_mul, Nat.sub_zero]
  · -- It is the first significand of the next scale.
    have hfirst : units ((s + 1) * binade + binade) = binade * 2 ^ (s + 1) :=
      units_of_significand (by decide) (Nat.le_refl _)
    rw [show s * binade + 2 * binade = (s + 1) * binade + binade by ring, hfirst, pow_succ]
    ring

/-- The rank below a number of units is made of the leading bits of the number. -/
theorem exists_rankBelow_eq (n : Nat) :
    ∃ m s, rankBelow n = s * binade + m ∧ m < 2 * binade ∧ (binade ≤ m ∨ s = 0) ∧
      m * 2 ^ s ≤ n ∧ n < (m + 1) * 2 ^ s := by
  have hpos := Nat.two_pow_pos (n.log2 - 52)
  refine ⟨n / 2 ^ (n.log2 - 52), n.log2 - 52, ?_, ?_, ?_, Nat.div_mul_le_self _ _, ?_⟩
  · simp only [rankBelow, Nat.shiftRight_eq_div_pow]
  · rw [Nat.div_lt_iff_lt_mul hpos, show 2 * binade = 2 ^ 53 by decide, ← pow_add]
    exact Nat.lt_log2_self.trans_le (Nat.pow_le_pow_right (by decide) (by omega))
  · rcases Nat.lt_or_ge n.log2 53 with hlog | hlog
    · exact .inr (by omega)
    · refine .inl ((Nat.le_div_iff_mul_le hpos).2 ?_)
      rw [show binade = 2 ^ 52 by decide, ← pow_add, show 52 + (n.log2 - 52) = n.log2 by omega]
      exact Nat.log2_self_le (by rintro rfl; exact absurd hlog (by decide))
  · rw [Nat.mul_comm]
    exact Nat.lt_mul_div_succ n hpos

/-- The rank below a number of units is that of a magnitude which is at most this number. -/
theorem units_rankBelow_le (n : Nat) : units (rankBelow n) ≤ n := by
  obtain ⟨m, s, hrank, hlt, hm, hle, -⟩ := exists_rankBelow_eq n
  rwa [hrank, units_of_le hlt.le hm]

/-- The next magnitude is larger. -/
theorem lt_units_rankBelow (n : Nat) : n < units (rankBelow n + 1) := by
  obtain ⟨m, s, hrank, hlt, hm, -, hgt⟩ := exists_rankBelow_eq n
  rwa [hrank, Nat.add_assoc, units_of_le (Nat.succ_le_of_lt hlt) (hm.imp_left fun h => by omega)]

/-! ## The nearest rank -/

/-- How far the magnitude of a rank is from `num / den`, in units that are as many times
    smaller as the denominator says. -/
def distance (num den rank : Nat) : Nat := Nat.dist (num <<< 1074) (den * units rank)

/-- The rank whose magnitude is nearest to a ratio, and the even one if there are two. -/
structure IsNearestRank (num den rank : Nat) : Prop where
  least : ∀ other, distance num den rank ≤ distance num den other
  even : ∀ other, other ≠ rank → distance num den other = distance num den rank → rank % 2 = 0

variable {num den rank : Nat}

/-- Two magnitudes stand next to a ratio, and all others beyond these. -/
theorem exists_neighbours (num : Nat) (hd : 0 < den) :
    let low := rankBelow (num <<< 1074 / den)
    den * units low ≤ num <<< 1074 ∧ num <<< 1074 < den * units (low + 1) ∧
      (∀ other < low, den * units other < den * units low) ∧
      ∀ other, low + 1 < other → den * units (low + 1) < den * units other := by
  intro low
  refine ⟨?_, ?_, fun other hlt => ?_, fun other hlt => ?_⟩
  · rw [Nat.mul_comm]
    exact (Nat.le_div_iff_mul_le hd).1 (units_rankBelow_le _)
  · rw [Nat.mul_comm]
    exact (Nat.div_lt_iff_lt_mul hd).1 (lt_units_rankBelow _)
  · exact Nat.mul_lt_mul_of_pos_left (strictMono_units hlt) hd
  · exact Nat.mul_lt_mul_of_pos_left (strictMono_units hlt) hd

/-- Every rank is one of the two neighbours of a ratio or lies beyond them. -/
theorem neighbour_cases (num : Nat) (hd : 0 < den) (other : Nat) :
    let low := rankBelow (num <<< 1074 / den)
    other = low ∨ other = low + 1 ∨ den * units other < den * units low ∨
      den * units (low + 1) < den * units other := by
  intro low
  obtain ⟨-, -, hbelow, habove⟩ := exists_neighbours num hd
  rcases Nat.lt_trichotomy other low with hlt | heq | hlt
  · exact .inr (.inr (.inl (hbelow other hlt)))
  · exact .inl heq
  · rcases Nat.eq_or_lt_of_le (Nat.succ_le_of_lt hlt) with heq | hlt
    · exact .inr (.inl heq.symm)
    · exact .inr (.inr (.inr (habove other hlt)))

/-- The nearest rank is the lower neighbour up to the middle, and the upper one from there on. -/
theorem nearestRank_side (num den : Nat) :
    let low := rankBelow (num <<< 1074 / den)
    let middle := den * units low + den * units (low + 1)
    (nearestRank num den = low ∧ 2 * (num <<< 1074) ≤ middle ∧
        (2 * (num <<< 1074) = middle → low % 2 = 0)) ∨
      (nearestRank num den = low + 1 ∧ middle ≤ 2 * (num <<< 1074) ∧
        (2 * (num <<< 1074) = middle → (low + 1) % 2 = 0)) := by
  simp only [nearestRank, Nat.mul_add]
  generalize rankBelow (num <<< 1074 / den) = low
  generalize num <<< 1074 = exact
  split
  · exact .inl ⟨rfl, by omega, by omega⟩
  · split
    · exact .inr ⟨rfl, by omega, by omega⟩
    · rcases Nat.mod_two_eq_zero_or_one low with h | h
      · exact .inl ⟨by rw [h, Nat.add_zero], by omega, fun _ => h⟩
      · exact .inr ⟨by rw [h], by omega, by omega⟩

theorem isNearestRank_nearestRank (num : Nat) (hd : 0 < den) :
    IsNearestRank num den (nearestRank num den) := by
  have hside := nearestRank_side num den
  obtain ⟨hle, hgt, -, -⟩ := exists_neighbours num hd
  have hcases := neighbour_cases num hd
  constructor
  · intro other
    have hother := hcases other
    unfold distance Nat.dist
    generalize rankBelow (num <<< 1074 / den) = low at *
    generalize num <<< 1074 = exact at *
    rcases hside with ⟨heq, hmiddle, -⟩ | ⟨heq, hmiddle, -⟩ <;> rw [heq] <;>
      rcases hother with rfl | rfl | hbelow | habove <;> omega
  · intro other hne heven
    have hother := hcases other
    unfold distance Nat.dist at heven
    generalize rankBelow (num <<< 1074 / den) = low at *
    generalize num <<< 1074 = exact at *
    rcases hside with ⟨heq, hmiddle, htie⟩ | ⟨heq, hmiddle, htie⟩ <;> rw [heq] at hne heven ⊢ <;>
      refine htie ?_ <;> rcases hother with rfl | rfl | hbelow | habove <;> omega

/-- There is only one nearest rank. -/
theorem IsNearestRank.unique {rank' : Nat} (hd : 0 < den) (h : IsNearestRank num den rank)
    (h' : IsNearestRank num den rank') : rank = rank' := by
  have hdistance := Nat.le_antisymm (h.least rank') (h'.least rank)
  by_contra hne
  -- Both would be even, and the magnitude between them nearer.
  have heven := h.even rank' (Ne.symm hne) hdistance.symm
  have heven' := h'.even rank hne hdistance
  wlog hlt : rank < rank' generalizing rank rank'
  · exact this h' h hdistance.symm (Ne.symm hne) heven' heven (by omega)
  have hfirst : den * units rank < den * units (rank + 1) :=
    Nat.mul_lt_mul_of_pos_left (strictMono_units (Nat.lt_succ_self _)) hd
  have hsecond : den * units (rank + 1) < den * units rank' :=
    Nat.mul_lt_mul_of_pos_left (strictMono_units (by omega)) hd
  have hleast := h.least (rank + 1)
  unfold distance Nat.dist at hdistance hleast
  generalize num <<< 1074 = exact at *
  omega

theorem isNearestRank_iff (hd : 0 < den) : IsNearestRank num den rank ↔ nearestRank num den = rank := by
  constructor
  · exact (isNearestRank_nearestRank num hd).unique hd
  · rintro rfl
    exact isNearestRank_nearestRank num hd

/-! ### Larger ratios -/

theorem rankBelow_le_rankBelow {m n : Nat} (h : m ≤ n) : rankBelow m ≤ rankBelow n :=
  Nat.lt_succ_iff.1 <| strictMono_units.lt_iff_lt.1 <|
    ((units_rankBelow_le m).trans h).trans_lt (lt_units_rankBelow n)

/-- The nearest rank does not fall where the numerator grows. -/
theorem nearestRank_le_of_le {num' : Nat} (den : Nat) (h : num ≤ num') :
    nearestRank num den ≤ nearestRank num' den := by
  have hscaled : num <<< 1074 ≤ num' <<< 1074 := by
    rw [Nat.shiftLeft_eq, Nat.shiftLeft_eq]
    exact Nat.mul_le_mul_right _ h
  have hlow := rankBelow_le_rankBelow (Nat.div_le_div_right (c := den) hscaled)
  have hsame : num <<< 1074 = num' <<< 1074 → nearestRank num den = nearestRank num' den := by
    rw [nearestRank, nearestRank]
    intro heq
    rw [heq]
  have hside := nearestRank_side num den
  have hside' := nearestRank_side num' den
  generalize num <<< 1074 = exact at *
  generalize num' <<< 1074 = exact' at *
  -- On the two sides of one middle, the ratios would be in the other order.
  rcases Nat.eq_or_lt_of_le hlow with heq | hlt
  · rw [heq] at hside
    rcases hside with ⟨hnear, -, -⟩ | ⟨hnear, hmiddle, -⟩ <;>
      rcases hside' with ⟨hnear', hmiddle', -⟩ | ⟨hnear', -, -⟩
    · omega
    · omega
    · exact (hsame (by omega)).le
    · omega
  · omega

/-- The nearest rank does not fall where the ratio grows. -/
theorem nearestRank_le_nearestRank {num' den' : Nat} (hd : 0 < den) (hd' : 0 < den')
    (h : num * den' ≤ num' * den) : nearestRank num den ≤ nearestRank num' den' := by
  calc nearestRank num den = nearestRank (num * den') (den * den') := (nearestRank_mul hd').symm
    _ ≤ nearestRank (num' * den) (den * den') := nearestRank_le_of_le _ h
    _ = nearestRank num' den' := by rw [Nat.mul_comm den, nearestRank_mul hd]

/-! ## The nearest number -/

theorem ofRank_of_le {rank : Nat} (negative : Bool) (h : ranks ≤ rank) :
    ofRank negative rank = .infinite negative := dif_neg (Nat.not_lt.2 h)

theorem two_pow_le_ten_pow (k : Nat) : 2 ^ (3 * k) ≤ Nat.pow 10 k := by
  rw [pow_mul]
  exact Nat.pow_le_pow_left (by decide) k

theorem decimalRank_zero_left (e : Int) : decimalRank 0 e = 0 := by
  refine nearestRank_of_units (ten_pow_pos _) ?_
  rw [Nat.zero_mul, Nat.zero_shiftLeft, show units 0 = 0 from rfl, Nat.mul_zero]

/-- A whole number of so many bits is beyond the finite numbers. -/
theorem ranks_le_nearestRank {n k : Nat} (hk : 1025 ≤ k) (h : 2 ^ k ≤ n) :
    ranks ≤ nearestRank n 1 := by
  have hlog := add_le_log2_shiftLeft h 1074
  have hbelow : ((n <<< 1074).log2 - 52) * binade ≤ rankBelow (n <<< 1074) := Nat.le_add_right _ _
  have hranks : 2047 * binade ≤ ((n <<< 1074).log2 - 52) * binade :=
    Nat.mul_le_mul_right _ (by omega)
  have hnear := nearestRank_cases n 1
  rw [Nat.div_one] at hnear
  exact (hranks.trans hbelow).trans (by omega)

/-- A decimal with an exponent above 400 is beyond the finite numbers. -/
theorem ranks_le_decimalRank {c : Nat} {e : Int} (hc : c ≠ 0) (he : 400 < e) :
    ranks ≤ decimalRank c e := by
  obtain ⟨k, rfl⟩ : ∃ k : Nat, e = k := ⟨e.toNat, by omega⟩
  have hlarge : 2 ^ (3 * k) ≤ c * Nat.pow 10 k :=
    (two_pow_le_ten_pow k).trans (Nat.le_mul_of_pos_left _ (Nat.pos_of_ne_zero hc))
  have heq : decimalRank c k = nearestRank (c * Nat.pow 10 k) 1 := by simp [decimalRank]
  rw [heq]
  exact ranks_le_nearestRank (by omega) hlarge

theorem shiftLeft_lt_two_pow (n k : Nat) : n <<< k < 2 ^ (n.log2 + 1 + k) := by
  rw [Nat.shiftLeft_eq, pow_add]
  exact Nat.mul_lt_mul_of_pos_right Nat.lt_log2_self (Nat.two_pow_pos k)

/-- A decimal that is so small is nearer to zero than to any other magnitude. -/
theorem decimalRank_eq_zero {c : Nat} {e : Int} (he : e + c.log2 + 1200 < 0) :
    decimalRank c e = 0 := by
  obtain ⟨k, rfl⟩ : ∃ k : Nat, e = -(k : Int) := ⟨(-e).toNat, by omega⟩
  have hsmall : 2 * (c <<< 1074) < Nat.pow 10 k := by
    calc 2 * (c <<< 1074) = c <<< (1074 + 1) := (Nat.shiftLeft_succ c 1074).symm
      _ < 2 ^ (c.log2 + 1 + (1074 + 1)) := shiftLeft_lt_two_pow c _
      _ ≤ 2 ^ (3 * k) := Nat.pow_le_pow_right (by decide) (by omega)
      _ ≤ Nat.pow 10 k := two_pow_le_ten_pow k
  have heq : decimalRank c (-k) = nearestRank c (Nat.pow 10 k) := by simp [decimalRank]
  have hlow : c <<< 1074 / Nat.pow 10 k = 0 := Nat.div_eq_of_lt (by omega)
  rw [heq]
  simp only [nearestRank, hlow, show rankBelow 0 = 0 from rfl, show units 0 = 0 from rfl,
    show units (0 + 1) = 1 from rfl, Nat.zero_add, Nat.mul_one, if_pos hsmall]

/-- The number that a decimal is read as has the nearest rank, also where the exponent is not
    computed with. -/
theorem ofDecimal_eq_ofRank (negative : Bool) (c : Nat) (e : Int) :
    ofDecimal negative c e = ofRank negative (decimalRank c e) := by
  rw [ofDecimal]
  split
  · rename_i hc
    rw [hc, decimalRank_zero_left, zero]
  · rename_i hc
    split
    · rename_i he
      rw [ofRank_of_le negative (ranks_le_decimalRank hc he)]
    · split
      · rename_i he
        rw [decimalRank_eq_zero he, zero]
      · rfl

/-- The number nearest to `c * 10 ^ e` with a sign: that of the nearest rank, or infinite if this
    is beyond the finite ones. -/
def IsNearest (negative : Bool) (c : Nat) (e : Int) (x : Number) : Prop :=
  ∃ rank, IsNearestRank (c * Nat.pow 10 e.toNat) (Nat.pow 10 (-e).toNat) rank ∧
    x = ofRank negative rank

/-- A decimal is read as the number nearest to it. -/
theorem isNearest_iff {negative : Bool} {c : Nat} {e : Int} {x : Number} :
    IsNearest negative c e x ↔ ofDecimal negative c e = x := by
  simp only [IsNearest, isNearestRank_iff (ten_pow_pos _), exists_eq_left', ofDecimal_eq_ofRank]
  exact eq_comm

end Criteria.Number

import Criteria.Proofs.Number.Shortest

/-!
# Whole numbers

Whole numbers below `2 ^ 53` are magnitudes, those of 64 bits are near one, and the
decimal that stands for a number is whole if the number is.

* `isFinite_ofInt`: an integer of 64 bits is read as a finite number;
* `units_of_ofDecimal`: what is read from a whole numeral, at a scale that allows
  for fractions, is exact;
* `exponent_shortest_nonneg`: the decimal of a whole number has no fraction;
* `shortest_of_digit`: the decimal of a whole number of one digit is that digit.
-/

namespace Criteria.Number

/-- A significand at a scale, in units. -/
theorem units_of_significand {m s : Nat} (hlt : m < 2 * binade) (hle : binade ≤ m) :
    units (s * binade + m) = m * 2 ^ s := by
  have hs : scale (s * binade + m) = s := by
    have : (s * binade + m) / binade = s + 1 :=
      Nat.div_eq_of_lt_le (by rw [Nat.add_mul]; omega) (by rw [Nat.add_mul, Nat.add_mul]; omega)
    rw [scale, this, Nat.add_sub_cancel]
  rw [units_eq, significand, hs, Nat.add_sub_cancel_left]

/-- A whole number of at most 53 bits is a magnitude at every scale of one unit. -/
theorem exists_units_eq {n k : Nat} (hpos : 0 < n) (hlt : n < 2 ^ 53) (hk : 52 ≤ k) :
    ∃ rank, units rank = n <<< k := by
  have hlog : n.log2 < 53 := (Nat.log2_lt hpos.ne').2 hlt
  obtain ⟨j, hj⟩ : ∃ j, n.log2 + j = 52 := ⟨52 - n.log2, by omega⟩
  obtain ⟨s, hs⟩ : ∃ s, j + s = k := ⟨k - j, by omega⟩
  refine ⟨s * binade + n * 2 ^ j, ?_⟩
  rw [units_of_significand, Nat.shiftLeft_eq, ← hs, pow_add, Nat.mul_assoc]
  · rw [show 2 * binade = 2 ^ 53 by decide, show 53 = n.log2 + 1 + j by omega, pow_add]
    exact Nat.mul_lt_mul_of_pos_right Nat.lt_log2_self (Nat.two_pow_pos _)
  · rw [show binade = 2 ^ 52 by decide, ← hj, pow_add]
    exact Nat.mul_le_mul_right _ (Nat.log2_self_le hpos.ne')

theorem beq_self_of_finite (negative : Bool) (rank : Fin ranks) :
    (Number.finite negative rank == .finite negative rank) = true := by
  change Number.equal _ _ = true
  simp [Number.equal, place?]

/-- The nearest rank is one of the two neighbours. -/
theorem nearestRank_cases (num den : Nat) :
    nearestRank num den = rankBelow (num <<< 1074 / den) ∨
      nearestRank num den = rankBelow (num <<< 1074 / den) + 1 := by
  simp only [nearestRank]
  split
  · exact .inl rfl
  · split
    · exact .inr rfl
    · omega

/-- A whole number in smaller units has as many more bits. -/
theorem add_le_log2_shiftLeft {n j : Nat} (h : 2 ^ j ≤ n) (k : Nat) : j + k ≤ (n <<< k).log2 := by
  have hpow : 2 ^ (j + k) ≤ n <<< k := by
    rw [Nat.shiftLeft_eq, pow_add]
    exact Nat.mul_le_mul_right _ h
  exact (Nat.le_log2 ((Nat.two_pow_pos _).trans_le hpow).ne').2 hpow

/-- A whole number of more than 53 bits has a scale that does not allow for fractions. -/
theorem le_rankBelow {n k : Nat} (h : 2 ^ 53 ≤ n) : (k + 1) * binade ≤ rankBelow (n <<< k) := by
  have hlog := add_le_log2_shiftLeft h k
  have : (k + 1) * binade ≤ ((n <<< k).log2 - 52) * binade := Nat.mul_le_mul_right _ (by omega)
  exact this.trans (Nat.le_add_right _ _)

/-- The rank of a whole number of so many bits. -/
theorem rankBelow_lt {n j k : Nat} (h : n < 2 ^ (j + 53)) :
    rankBelow (n <<< k) < (j + k + 2) * binade := by
  rw [Nat.shiftLeft_eq]
  have hlt : n * 2 ^ k < 2 ^ (j + k + 53) := by
    rw [Nat.add_right_comm, pow_add]
    exact Nat.mul_lt_mul_of_pos_right h (Nat.two_pow_pos k)
  generalize n * 2 ^ k = m at hlt
  have hlog : m.log2 - 52 ≤ j + k := by
    by_cases hm : m = 0
    · subst hm
      exact Nat.zero_le _
    · have := (Nat.log2_lt hm).2 hlt
      omega
  have hpart : m >>> (m.log2 - 52) < 2 * binade := by
    rw [Nat.shiftRight_eq_div_pow, Nat.div_lt_iff_lt_mul (Nat.two_pow_pos _),
      show 2 * binade = 2 ^ 53 by decide, ← pow_add]
    exact Nat.lt_log2_self.trans_le (Nat.pow_le_pow_right (by decide) (by omega))
  have hscale : (m.log2 - 52) * binade ≤ (j + k) * binade := Nat.mul_le_mul_right _ hlog
  simp only [rankBelow]
  rw [Nat.add_mul]
  omega

theorem decimalRank_zero (n : Nat) : decimalRank n 0 = nearestRank n 1 := by
  simp [decimalRank]

/-- An integer of 64 bits is not too large for a finite number. -/
theorem isFinite_ofInt {i : Int} (h : i.natAbs ≤ wholeLimit) : (ofInt i).isFinite := by
  by_cases hi : i.natAbs = 0
  · rw [ofInt, hi]
    rfl
  · have hin : InRange i.natAbs 0 := ⟨hi, by decide, by omega⟩
    -- At 65 bits, the scale is only half of the largest.
    have hbelow : rankBelow (i.natAbs <<< 1074) < (12 + 1074 + 2) * binade :=
      rankBelow_lt (h.trans_lt (by decide))
    have hrank : nearestRank i.natAbs 1 < ranks := by
      have hnear := nearestRank_cases i.natAbs 1
      rw [Nat.div_one] at hnear
      have hranks : (12 + 1074 + 2) * binade < ranks := by decide
      omega
    rw [ofInt, ofDecimal_of_inRange hin, decimalRank_zero, ofRank_of_lt _ hrank]
    rfl

/-- What is read from a whole numeral of at most 53 bits is exact. -/
theorem units_of_ofDecimal_of_lt {n : Nat} {rank : Fin ranks} (hr : 0 < rank.val)
    (h : ofDecimal false n 0 = .finite false rank) (hlt : n < 2 ^ 53) :
    units rank.val = n <<< 1074 := by
  have hin := inRange_of_ofDecimal hr h
  rw [ofDecimal_of_inRange hin, decimalRank_zero] at h
  obtain ⟨exact, hexact⟩ := exists_units_eq (Nat.pos_of_ne_zero hin.1) hlt
    (show 52 ≤ 1074 by decide)
  have : nearestRank n 1 = exact := nearestRank_of_units Nat.one_pos (by rw [hexact, Nat.one_mul])
  rw [← (ofRank_eq_finite h).1, this, hexact]

/-- What is read from a whole numeral, at a scale that allows for fractions, is exact. -/
theorem units_of_ofDecimal {n : Nat} {rank : Fin ranks} (hr : 0 < rank.val)
    (h : ofDecimal false n 0 = .finite false rank) (hs : scale rank.val < 1074) :
    n < 2 ^ 53 ∧ units rank.val = n <<< 1074 := by
  have hlt : n < 2 ^ 53 := by
    by_contra hge
    have h₁ : (1074 + 1) * binade ≤ rankBelow (n <<< 1074) := le_rankBelow (by omega)
    have h₂ := nearestRank_cases n 1
    rw [ofDecimal_of_inRange (inRange_of_ofDecimal hr h), decimalRank_zero] at h
    rw [Nat.div_one, (ofRank_eq_finite h).1] at h₂
    simp only [scale, binade] at hs h₁
    omega
  exact ⟨hlt, units_of_ofDecimal_of_lt hr h hlt⟩

/-! ## Their shortest decimals -/

/-- Zeros appended to a coefficient are zeros appended to its digits. -/
theorem toDigits_mul_pow {n : Nat} (hn : 0 < n) (k : Nat) :
    Nat.toDigits 10 (n * Nat.pow 10 k) = Nat.toDigits 10 n ++ List.replicate k '0' := by
  induction k with
  | zero => simp
  | succ k ih =>
    have hpos : 0 < n * Nat.pow 10 k := Nat.mul_pos hn (ten_pow_pos k)
    have := Nat.toDigits_append_toDigits (by decide : 1 < 10) hpos (by decide : 0 < 10)
    rw [show n * Nat.pow 10 (k + 1) = 10 * (n * Nat.pow 10 k) + 0 by
      rw [ten_pow_add]
      ring_nf
      rfl, ← this, ih, List.append_assoc, List.replicate_succ']
    rfl

variable {n : Nat} {rank : Fin ranks}

/-- At a scale that allows for fractions, the exact value of a whole number is the
    number with zeros. -/
theorem exactDecimal_of_whole (h : units rank.val = n <<< 1074) (hs : scale rank.val < 1074) :
    exactDecimal rank.val = ⟨n * Nat.pow 10 (1074 - scale rank.val), scale rank.val - 1074⟩ := by
  obtain ⟨k, hk⟩ : ∃ k, scale rank.val + k = 1074 := ⟨1074 - scale rank.val, by omega⟩
  have hsig : significand rank.val = n * 2 ^ k := by
    rw [units_eq, ← hk, Nat.shiftLeft_eq, pow_add, Nat.mul_comm (2 ^ scale rank.val),
      ← Nat.mul_assoc] at h
    exact Nat.eq_of_mul_eq_mul_right (Nat.two_pow_pos _) h
  rw [exactDecimal_of_lt hs, hsig, show 1074 - scale rank.val = k by omega, Nat.mul_assoc,
    show Nat.pow 10 k = 2 ^ k * 5 ^ k from mul_pow 2 5 k]
  rfl

/-- A whole number is a candidate for itself, with all of its digits. -/
theorem candidate?_of_whole (hr : 0 < rank.val)
    (h : ofDecimal false n 0 = .finite false rank) (hs : scale rank.val < 1074) (tie : Tie) :
    candidate? tie rank.val (exactDecimal rank.val) (exactDecimal rank.val).digits.length
      (Nat.toDigits 10 n).length = some (Decimal.trimZeros n 0) := by
  obtain ⟨hlt, hunits⟩ := units_of_ofDecimal hr h hs
  have hn : 0 < n := Nat.pos_of_ne_zero (inRange_of_ofDecimal hr h).1
  have hexact := exactDecimal_of_whole hunits hs
  have hwidth : (exactDecimal rank.val).digits.length - (Nat.toDigits 10 n).length =
      1074 - scale rank.val := by
    rw [hexact, Decimal.digits, toDigits_mul_pow hn, List.length_append, List.length_replicate,
      Nat.add_sub_cancel_left]
  have hexp : (exactDecimal rank.val).exponent + ((1074 - scale rank.val : Nat) : Int) = 0 := by
    rw [hexact]
    simp only
    omega
  have hmax : (Decimal.trimZeros n 0).exponent ≤ 400 := by
    obtain ⟨j, hj, he, hne⟩ := Decimal.trimZeros_eq n 0
    have : 2 ^ j ≤ n := by
      rw [hj]
      exact (Nat.pow_le_pow_left (by decide) j).trans
        (Nat.le_mul_of_pos_left _ (Nat.pos_of_ne_zero (hne hn.ne')))
    have : j < 53 := (Nat.pow_lt_pow_iff_right (by decide)).1 (this.trans_lt hlt)
    omega
  have := @candidate?_of_exact tie rank.val (exactDecimal rank.val).digits.length
    (Nat.toDigits 10 n).length (exactDecimal rank.val) n
  rw [hwidth, hexp] at this
  refine this (by rw [hexact]) ?_
  rw [Decimal.toNumber_trimZeros hn.ne' (by decide) hmax, h, ofRank_of_lt false rank.isLt]
  exact beq_self_of_finite _ _

/-- The decimal of a whole number has no fraction. -/
theorem exponent_shortest_nonneg (hr : 0 < rank.val)
    (h : ofDecimal false n 0 = .finite false rank) (tie : Tie) :
    0 ≤ (shortest tie rank.val).exponent := by
  by_cases hs : scale rank.val < 1074
  · obtain ⟨hlt, hunits⟩ := units_of_ofDecimal hr h hs
    have hn : 0 < n := Nat.pos_of_ne_zero (inRange_of_ofDecimal hr h).1
    have hsize : (Nat.toDigits 10 n).length ≤ 17 :=
      (Nat.length_toDigits_le_iff (by decide) (by decide)).2 (hlt.trans (by decide))
    obtain ⟨least, -, hle, hleast⟩ := exists_candidate?_of_some
      (List.length_pos_iff.2 Nat.toDigits_ne_nil) hsize (candidate?_of_whole hr h hs tie)
    obtain ⟨-, m, hm⟩ := of_candidate? hleast
    -- All the digits behind the point are dropped, and perhaps more.
    have hwidth : (exactDecimal rank.val).digits.length =
        (Nat.toDigits 10 n).length + (1074 - scale rank.val) := by
      rw [exactDecimal_of_whole hunits hs, Decimal.digits, toDigits_mul_pow hn,
        List.length_append, List.length_replicate]
    have hexp : (exactDecimal rank.val).exponent = scale rank.val - 1074 := by
      rw [exactDecimal_of_lt hs]
    rw [hm]
    refine le_trans ?_ (Decimal.le_exponent_trimZeros _ _)
    omega
  · have := exactDecimal_le_shortest tie rank.val
    rw [exactDecimal_of_le (Nat.le_of_not_lt hs)] at this
    exact this

/-- The decimal of a whole number of one digit is that digit. -/
theorem shortest_of_digit (hr : 0 < rank.val) (hdigit : n < 10)
    (h : ofDecimal false n 0 = .finite false rank) (tie : Tie) :
    shortest tie rank.val = ⟨n, 0⟩ := by
  have hs : scale rank.val < 1074 := by
    by_contra hs
    have hunits := units_of_ofDecimal_of_lt hr h (hdigit.trans (by decide))
    have hsig : 10 ≤ significand rank.val := (show 10 ≤ binade by decide).trans
      (le_significand (by omega))
    rw [units_eq, Nat.shiftLeft_eq] at hunits
    generalize 1074 = k at hs hunits
    have : 10 * 2 ^ k ≤ significand rank.val * 2 ^ scale rank.val :=
      Nat.mul_le_mul hsig (Nat.pow_le_pow_right (by decide) (Nat.le_of_not_lt hs))
    rw [hunits] at this
    exact Nat.not_le.2 hdigit (Nat.le_of_mul_le_mul_right this (Nat.two_pow_pos _))
  have hn : 0 < n := Nat.pos_of_ne_zero (inRange_of_ofDecimal hr h).1
  have hlen : (Nat.toDigits 10 n).length = 1 := by
    rw [Nat.toDigits_of_lt_base hdigit]
    rfl
  have hcand := candidate?_of_whole hr h hs tie
  rw [hlen] at hcand
  obtain ⟨least, hmin, hle, hleast⟩ := exists_candidate?_of_some
    (Nat.le_refl _) (by decide) hcand
  obtain rfl : least = 1 := by omega
  rw [hcand] at hleast
  rw [← Option.some.inj hleast, Decimal.trimZeros, if_neg (by omega)]

end Criteria.Number

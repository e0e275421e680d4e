import Criteria.Number.Shortest
import Criteria.Proofs.Number.Exact
import Mathlib.Data.Nat.Prime.Basic

/-!
# Shortest decimals read back

The decimal that stands for a number reads back as the number, with any sign: a
candidate because it is tried, and the exact value because it is a magnitude.

* `toNumber_shortest`: the decimal of a rank reads as the number of that rank;
* `exists_candidate?_of_some`: no candidate has fewer digits.
-/

namespace Criteria

namespace Decimal

/-- Taking zeros off a coefficient raises the exponent by their number. -/
theorem trimZeros_eq (c : Nat) (e : Int) :
    ∃ j : Nat, c = (trimZeros c e).coefficient * Nat.pow 10 j ∧
      (trimZeros c e).exponent = e + j ∧ (c ≠ 0 → (trimZeros c e).coefficient ≠ 0) := by
  fun_induction trimZeros c e with
  | case1 c e h ih =>
    obtain ⟨j, hc, he, hne⟩ := ih
    have hten : c / 10 * 10 = c := Nat.div_mul_cancel (Nat.dvd_of_mod_eq_zero h.2)
    refine ⟨j + 1, ?_, by omega, fun _ => hne (by omega)⟩
    calc c = c / 10 * 10 := hten.symm
      _ = (trimZeros (c / 10) (e + 1)).coefficient * Nat.pow 10 j * 10 :=
        congrArg (· * 10) hc
      _ = _ := by rw [Nat.mul_assoc]; rfl
  | case2 c e h => exact ⟨0, by simp, by simp, id⟩

theorem le_exponent_trimZeros (c : Nat) (e : Int) : e ≤ (trimZeros c e).exponent := by
  obtain ⟨j, -, he, -⟩ := trimZeros_eq c e
  omega

/-- Without its zeros a decimal reads as the same number, unless its exponent is
    too large for any finite number. -/
theorem toNumber_trimZeros {c : Nat} {e : Int} (hc : c ≠ 0) (he : -1200 ≤ e)
    (hmax : (trimZeros c e).exponent ≤ 400) (negative : Bool) :
    (trimZeros c e).toNumber negative = .ofDecimal negative c e := by
  obtain ⟨j, hcj, hej, hne⟩ := trimZeros_eq c e
  have hr : Number.InRange (trimZeros c e).coefficient (trimZeros c e).exponent :=
    ⟨hne hc, hmax, by omega⟩
  have := @Number.ofDecimal_mul_pow negative _ _ hr j
  rw [← hcj, hej, Int.add_sub_cancel] at this
  rw [toNumber, hej, this]

end Decimal

namespace Number

/-! ## The exact value -/

theorem exactDecimal_of_lt {rank : Nat} (h : scale rank < 1074) :
    exactDecimal rank =
      ⟨significand rank * Nat.pow 5 (1074 - scale rank), scale rank - 1074⟩ := by
  simp only [exactDecimal, if_pos h, significand]

theorem exactDecimal_of_le {rank : Nat} (h : 1074 ≤ scale rank) :
    exactDecimal rank = ⟨significand rank <<< (scale rank - 1074), 0⟩ := by
  simp only [exactDecimal, if_neg (Nat.not_lt.2 h), significand]

/-- The exact value of a rank is its magnitude. -/
theorem decimalRank_exactDecimal (rank : Nat) :
    decimalRank (exactDecimal rank).coefficient (exactDecimal rank).exponent = rank := by
  by_cases h : scale rank < 1074
  · obtain ⟨k, hk⟩ : ∃ k, scale rank + k = 1074 := ⟨1074 - scale rank, by omega⟩
    rw [exactDecimal_of_lt h]
    have hnum : ((scale rank : Int) - 1074).toNat = 0 := by omega
    have hden : (-((scale rank : Int) - 1074)).toNat = k := by omega
    have hexp : 1074 - scale rank = k := by omega
    simp only [decimalRank, hnum, hden, hexp]
    refine nearestRank_of_units (ten_pow_pos k) ?_
    rw [units_eq, ← hk, Nat.shiftLeft_eq, pow_add, show Nat.pow 10 k = 5 ^ k * 2 ^ k from
      mul_pow 5 2 k, show Nat.pow 5 k = 5 ^ k from rfl, show Nat.pow 10 0 = 1 from rfl]
    ring
  · have h := Nat.le_of_not_lt h
    obtain ⟨k, hk⟩ : ∃ k, scale rank = 1074 + k := ⟨scale rank - 1074, by omega⟩
    rw [exactDecimal_of_le h]
    have hexp : scale rank - 1074 = k := by omega
    simp only [decimalRank, hexp]
    refine nearestRank_of_units (ten_pow_pos _) ?_
    have hunits : units rank = significand rank <<< k <<< 1074 := by
      rw [← Nat.shiftLeft_add, Nat.add_comm, ← hk]
      rfl
    rw [hunits, Int.toNat_zero, Int.neg_zero, Int.toNat_zero]
    simp

/-- The exact value of a finite number has no exponent beyond any finite number. -/
theorem exponent_trimZeros_exactDecimal {rank : Nat} (hr : 0 < rank) (h : rank < ranks) :
    (Decimal.trimZeros (exactDecimal rank).coefficient (exactDecimal rank).exponent).exponent ≤
      400 := by
  obtain ⟨j, hc, he, -⟩ :=
    Decimal.trimZeros_eq (exactDecimal rank).coefficient (exactDecimal rank).exponent
  have hsig := significand_lt rank
  have hpos := significand_pos hr
  rw [he]
  generalize (Decimal.trimZeros _ _).coefficient = q at hc
  by_cases hs : scale rank < 1074
  · rw [exactDecimal_of_lt hs] at hc ⊢
    -- Zeros can only come from the factors two of the significand.
    have hdvd : 2 ^ j ∣ significand rank := by
      have hcop : Nat.Coprime (2 ^ j) (5 ^ (1074 - scale rank)) := Nat.Coprime.pow _ _ (by decide)
      refine hcop.dvd_of_dvd_mul_right ⟨q * 5 ^ j, hc.trans ?_⟩
      rw [show Nat.pow 10 j = 2 ^ j * 5 ^ j from mul_pow 2 5 j]
      ring
    have hle := Nat.le_of_dvd hpos hdvd
    have hj : j < 53 := (Nat.pow_lt_pow_iff_right (by decide)).1 (hle.trans_lt hsig)
    simp only
    omega
  · rw [exactDecimal_of_le (Nat.le_of_not_lt hs)] at hc ⊢
    have hc : significand rank <<< (scale rank - 1074) = q * Nat.pow 10 j := hc
    -- The coefficient is below `2 ^ 1024`.
    have hscale := scale_le h
    have hle : 2 ^ (3 * j) ≤ significand rank * 2 ^ (scale rank - 1074) := by
      rw [← Nat.shiftLeft_eq, hc]
      refine le_trans ?_ (Nat.le_mul_of_pos_left _ (Nat.pos_of_ne_zero ?_))
      · rw [pow_mul]
        exact Nat.pow_le_pow_left (by decide) j
      · rintro rfl
        have : 0 < significand rank <<< (scale rank - 1074) := by
          rw [Nat.shiftLeft_eq]
          exact Nat.mul_pos hpos (Nat.two_pow_pos _)
        omega
    have hlt : significand rank * 2 ^ (scale rank - 1074) < 2 ^ (53 + (scale rank - 1074)) := by
      rw [pow_add]
      exact Nat.mul_lt_mul_of_pos_right hsig (Nat.two_pow_pos _)
    have hj : 3 * j < 53 + (scale rank - 1074) :=
      (Nat.pow_lt_pow_iff_right (by decide)).1 (hle.trans_lt hlt)
    simp only
    omega

/-! ## Candidates -/

/-- A number that equals one that is finite and not zero is that number. -/
theorem eq_of_beq {x : Number} {negative : Bool} {rank : Fin ranks} (hr : 0 < rank.val)
    (h : (x == .finite negative rank) = true) : x = .finite negative rank := by
  have hlt := rank.isLt
  change Number.equal _ _ = true at h
  cases x with
  | nan => simp [Number.equal, place?] at h
  | infinite b =>
    cases b <;> cases negative <;> simp [Number.equal, place?] at h <;> omega
  | finite b r =>
    cases b <;> cases negative <;> simp [Number.equal, place?] at h <;>
      first
      | omega
      | (congr; omega)

variable {tie : Tie} {rank width size : Nat} {exact d : Decimal}

/-- A candidate is a neighbour of the exact value on the grid of its size, and it
    reads back. -/
theorem of_candidate? (h : candidate? tie rank exact width size = some d) :
    (d.toNumber false == ofRank false rank) = true ∧
      ∃ n, d = Decimal.trimZeros n (exact.exponent + (width - size : Nat)) := by
  simp only [candidate?] at h
  split at h
  · rename_i hl _
    exact Option.some.inj h ▸ ⟨hl, _, rfl⟩
  · rename_i hl hu
    exact Option.some.inj h ▸ ⟨hu, _, rfl⟩
  · simp at h
  · rename_i hl hu
    split at h
    · exact Option.some.inj h ▸ ⟨hl, _, rfl⟩
    · split at h
      · exact Option.some.inj h ▸ ⟨hu, _, rfl⟩
      · split at h
        · exact Option.some.inj h ▸ ⟨hu, _, rfl⟩
        · split at h
          · exact Option.some.inj h ▸ ⟨hl, _, rfl⟩
          · exact Option.some.inj h ▸ ⟨hu, _, rfl⟩

/-- The exact value is a candidate where it is on the grid. -/
theorem candidate?_of_exact {n : Nat} (hn : exact.coefficient = n * Nat.pow 10 (width - size))
    (hr : ((Decimal.trimZeros n (exact.exponent + (width - size : Nat))).toNumber false ==
      ofRank false rank) = true) :
    candidate? tie rank exact width size =
      some (Decimal.trimZeros n (exact.exponent + (width - size : Nat))) := by
  have hpos := ten_pow_pos (width - size)
  have hlow : exact.coefficient / Nat.pow 10 (width - size) = n := by
    rw [hn, Nat.mul_div_cancel _ hpos]
  have hrest : exact.coefficient % Nat.pow 10 (width - size) = 0 := by
    rw [hn, Nat.mul_mod_left]
  simp only [candidate?, hlow, hrest, hr]
  split
  · rfl
  · simp_all
  · simp_all
  · exact if_pos hpos

/-! ## Reading back -/

/-- A decimal that reads as a positive number reads with any sign. -/
theorem toNumber_of_false {rank : Fin ranks} (hr : 0 < rank.val)
    (h : d.toNumber false = .finite false rank) (negative : Bool) :
    d.toNumber negative = .finite negative rank := by
  have hin := inRange_of_ofDecimal hr h
  rw [Decimal.toNumber, ofDecimal_of_inRange hin] at h ⊢
  rw [(ofRank_eq_finite h).1, ofRank_of_lt negative rank.isLt]

theorem inRange_exactDecimal {rank : Nat} (hr : 0 < rank) :
    InRange (exactDecimal rank).coefficient (exactDecimal rank).exponent := by
  have hpos := significand_pos hr
  by_cases hs : scale rank < 1074
  · rw [exactDecimal_of_lt hs]
    have : 0 < significand rank * Nat.pow 5 (1074 - scale rank) :=
      Nat.mul_pos hpos (Nat.pow_pos (by decide))
    exact ⟨this.ne', by simp only; omega, by simp only; omega⟩
  · rw [exactDecimal_of_le (Nat.le_of_not_lt hs)]
    have : 0 < significand rank <<< (scale rank - 1074) := by
      rw [Nat.shiftLeft_eq]
      exact Nat.mul_pos hpos (Nat.two_pow_pos _)
    exact ⟨this.ne', by simp, by simp only; omega⟩

/-- The decimal of a rank reads as the number of that rank, with any sign. -/
theorem toNumber_shortest {rank : Nat} (hr : 0 < rank) (h : rank < ranks) (tie : Tie)
    (negative : Bool) :
    (shortest tie rank).toNumber negative = .finite negative ⟨rank, h⟩ := by
  refine toNumber_of_false hr ?_ negative
  simp only [shortest]
  split
  · rename_i d hd
    -- A candidate has been tried.
    obtain ⟨size, -, hd⟩ := List.exists_of_findSome?_eq_some hd
    have := (of_candidate? hd).1
    rw [ofRank_of_lt false h] at this
    exact eq_of_beq hr this
  · have hin := inRange_exactDecimal hr
    have hexp : -1200 ≤ (exactDecimal rank).exponent := by
      by_cases hs : scale rank < 1074
      · rw [exactDecimal_of_lt hs]
        simp only
        omega
      · rw [exactDecimal_of_le (Nat.le_of_not_lt hs)]
        simp
    rw [Decimal.toNumber_trimZeros hin.1 hexp (exponent_trimZeros_exactDecimal hr h),
      ofDecimal_of_inRange hin, decimalRank_exactDecimal, ofRank_of_lt false h]

/-! ## Fewest digits -/

theorem exactDecimal_le_shortest (tie : Tie) (rank : Nat) :
    (exactDecimal rank).exponent ≤ (shortest tie rank).exponent := by
  simp only [shortest]
  split
  · rename_i d hd
    obtain ⟨size, -, hd⟩ := List.exists_of_findSome?_eq_some hd
    obtain ⟨-, n, rfl⟩ := of_candidate? hd
    have := Decimal.le_exponent_trimZeros n
      ((exactDecimal rank).exponent + ((exactDecimal rank).digits.length - size : Nat))
    omega
  · exact Decimal.le_exponent_trimZeros _ _

/-- Where there is a candidate of some size, the shortest decimal is a candidate
    that is no longer. -/
theorem exists_candidate?_of_some {tie : Tie} {rank size : Nat} {d : Decimal}
    (hmin : 1 ≤ size) (hmax : size ≤ 17)
    (h : candidate? tie rank (exactDecimal rank) (exactDecimal rank).digits.length size =
      some d) :
    ∃ least, 1 ≤ least ∧ least ≤ size ∧
      candidate? tie rank (exactDecimal rank) (exactDecimal rank).digits.length least =
        some (shortest tie rank) := by
  have hmem : size ∈ List.range' 1 17 := List.mem_range'_1.2 ⟨hmin, by omega⟩
  simp only [shortest]
  split
  · rename_i found hfound
    obtain ⟨before, least, after, hl, hfound, hnone⟩ := List.findSome?_eq_some_iff.1 hfound
    refine ⟨least, ?_, ?_, hfound⟩
    · exact (List.mem_range'_1.1 (hl ▸ List.mem_append_right _ List.mem_cons_self)).1
    · have hsorted : (before ++ least :: after).Pairwise (· < ·) := hl ▸ List.pairwise_lt_range'
      rw [hl] at hmem
      rcases List.mem_append.1 hmem with hb | ha
      · rw [hnone size hb] at h
        simp at h
      · rcases List.mem_cons.1 ha with rfl | ha
        · exact Nat.le_refl _
        · exact ((List.pairwise_cons.1 (List.pairwise_append.1 hsorted).2.1).1 size ha).le
  · rename_i hnone
    rw [List.findSome?_eq_none_iff.1 hnone size hmem] at h
    simp at h

end Number

end Criteria

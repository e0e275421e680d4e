import Criteria.Proofs.Number.Text

/-!
# Numbers in rules

In a rule a number stands bare, and what is read of it is the word that it starts
with. That word reads as the number only if it is all of the text, and the text
consists of digits.

* `read?_text_of_digits`: a text of digits reads as the number;
* `isDigit_of_read?_word`: no other text has a word that does.
-/

namespace Criteria.Number

/-- A number that equals a finite one is finite. -/
theorem exists_eq_finite {x y : Number} (hy : y.isFinite) (h : (y == x) = true) :
    ∃ negative rank, x = .finite negative rank := by
  change Number.equal y x = true at h
  cases y with
  | nan => simp [isFinite] at hy
  | infinite negative => simp [isFinite] at hy
  | finite negative rank =>
    have hlt := rank.isLt
    cases x with
    | nan => simp [Number.equal, place?] at h
    | finite negative' rank' => exact ⟨negative', rank', rfl⟩
    | infinite negative' =>
      cases negative <;> cases negative' <;> simp [Number.equal, place?] at h <;> omega

/-! ## Reading words -/

variable {x y : Number}

/-- A number whose text consists of digits reads back. -/
theorem read?_text_of_digits (h : ∀ c ∈ x.text.toList, c.isDigit) :
    ∃ y, read? x.text = some y ∧ y.isFinite ∧ (y == x) = true := by
  cases x with
  | nan => exact absurd (h 'N' (by decide)) (by decide)
  | infinite negative =>
    exact absurd (h 'I' (by cases negative <;> decide)) (by decide)
  | finite negative rank => exact ⟨_, read?_text negative rank, rfl, beq_of_sign negative rank⟩

/-- The word that a text with a point starts with is the run of digits before it. -/
theorem word_eq_of_point {digits rest : List Char} (hd : ∀ c ∈ digits, c.isDigit) :
    Text.word (digits ++ '.' :: rest) = digits :=
  Text.word_append (fun c hc => Text.isWordChar_of_isDigit (hd c hc))
    (Text.stops_cons.2 (by decide))

/-- A positional text with a word that reads as the number has no point. -/
theorem isDigit_positional {rank : Fin ranks} (hr : 0 < rank.val)
    (h : read? (String.ofList (Text.word (plain.positional (shortest .up rank.val)))) =
      some (.finite false rank)) :
    ∀ c ∈ plain.positional (shortest .up rank.val), c.isDigit := by
  have hdigits := (shortest .up rank.val).isDigit_digits
  -- A run of digits before a point reads as a whole number.
  have of_point {digits rest : List Char} (hne : digits ≠ []) (hd : ∀ c ∈ digits, c.isDigit)
      (h : read? (String.ofList (Text.word (digits ++ '.' :: rest))) = some (.finite false rank)) :
      0 ≤ (shortest .up rank.val).exponent := by
    rw [word_eq_of_point hd, read?_of_digits hne hd, Option.some.injEq] at h
    exact exponent_shortest_nonneg hr h .up
  simp only [Layout.positional] at h ⊢
  split at h
  · rename_i he
    rw [if_pos he]
    rw [show plain.afterWhole = [] from rfl, List.append_nil]
    exact List.forall_mem_append.2 ⟨hdigits, isDigit_of_mem_zeros⟩
  · split at h
    · rename_i he hp
      refine absurd (of_point ?_ (fun c hc => hdigits c (List.mem_of_mem_take hc)) h) he
      rw [ne_eq, List.take_eq_nil_iff, not_or]
      exact ⟨by omega, (shortest .up rank.val).digits_ne_nil⟩
    · rename_i he hp
      have hzero : ∀ c ∈ ['0'], c.isDigit := List.forall_mem_singleton.2 (by decide)
      exact absurd (of_point (by simp) hzero h) he

theorem ofDigitChars_lt_ten {c : Char} (h : c.isDigit) : Nat.ofDigitChars 10 [c] 0 < 10 := by
  rw [Char.isDigit_iff_toNat] at h
  simp only [show '0'.toNat = 48 from rfl, show '9'.toNat = 57 from rfl] at h
  rw [Nat.ofDigitChars_cons, Nat.ofDigitChars_nil, show '0'.toNat = 48 from rfl]
  omega

/-- The first digit of a number does not read as the number if more is written of it. -/
theorem read?_word_scientific {rank : Fin ranks} (hr : 0 < rank.val) :
    read? (String.ofList (Text.word (Layout.scientific (shortest .up rank.val)))) ≠
      some (.finite false rank) := by
  have hdigits := (shortest .up rank.val).isDigit_digits
  obtain ⟨first, more, hcons⟩ := List.exists_cons_of_ne_nil (shortest .up rank.val).digits_ne_nil
  have hfirst : first.isDigit := hdigits first (by simp [hcons])
  obtain ⟨e, he⟩ : ∃ e : Int, (shortest .up rank.val).digits.length +
    (shortest .up rank.val).exponent - 1 = e := ⟨_, rfl⟩
  rw [Spelling.scientific_eq hcons he]
  intro h
  have hall : ∀ c ∈ [first], c.isDigit := by simpa using hfirst
  by_cases hmore : more = []
  · -- The word is the digit and the letter of the exponent.
    have hword : ∀ c ∈ [first, 'e'], Text.isWordChar c := by
      simpa using ⟨Text.isWordChar_of_isDigit hfirst, by decide⟩
    have hsign : Text.Stops Text.isWordChar ((if decide (e < 0) then '-' else '+') ::
        Nat.toDigits 10 e.natAbs) := by
      rw [Text.stops_cons]
      split <;> decide
    have := Text.word_append hword hsign
    rw [hmore, Spelling.pointed, if_pos rfl, List.nil_append, Spelling.powered] at h
    rw [show first :: 'e' :: (if decide (e < 0) then '-' else '+') ::
      Nat.toDigits 10 e.natAbs = [first, 'e'] ++ _ from rfl, this,
      show [first, 'e'] = [first] ++ ['e'] from rfl,
      read?_digits_letter (by simp) hall (.inl rfl)] at h
    simp at h
  · -- The word is the digit, and the number would be written with that digit alone.
    rw [Spelling.pointed, if_neg hmore, List.cons_append, ← List.singleton_append,
      word_eq_of_point hall, read?_of_digits (by simp) hall, Option.some.injEq] at h
    have hlt := ofDigitChars_lt_ten hfirst
    have hshort := shortest_of_digit hr hlt h .up
    rw [hshort, Decimal.digits, Nat.toDigits_of_lt_base hlt] at hcons
    exact hmore (List.cons.inj hcons).2.symm

/-- If the word that the text of a finite number starts with reads as the number, the
    text consists of digits. -/
theorem isDigit_of_read?_word {negative : Bool} {rank : Fin ranks}
    (hword : Text.word (Number.finite negative rank).text.toList ≠ [])
    (h : read? (String.ofList (Text.word (Number.finite negative rank).text.toList)) = some y)
    (hy : (y == .finite negative rank) = true) :
    ∀ c ∈ (Number.finite negative rank).text.toList, c.isDigit := by
  rw [text, String.toList_ofList, Layout.write] at *
  by_cases hr : rank.val = 0
  · rw [if_pos hr, show plain.signedZero = false from rfl, Bool.and_false]
    exact List.forall_mem_singleton.2 (by decide)
  · rw [if_neg hr] at *
    cases negative with
    | true => exact absurd rfl hword
    | false =>
      rw [eq_of_beq (Nat.pos_of_ne_zero hr) hy] at h
      have hr := Nat.pos_of_ne_zero hr
      simp only [Bool.false_eq_true, if_false, List.nil_append, Layout.writeDecimal,
        show plain.tie = .up from rfl] at h ⊢
      split at h
      · rename_i hplace
        rw [if_pos hplace]
        exact isDigit_positional hr h
      · exact absurd h (read?_word_scientific hr)

end Criteria.Number

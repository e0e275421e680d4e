import Criteria.Proofs.Number.Grammar

/-!
# Spellings read back

A spelling is a decimal, and reads as the number that it stands for; so does a run of digits,
also one with zeros in front.

* `Spelling.unsigned`, `readTrimmed?_spelling`: reading a spelling behind a sign;
* `read?_of_digits`, `read?_digits_letter`: reading a run of digits, and one with a letter behind;
* `read?_ne_nan`: what is read is a number.
-/

namespace Criteria

/-! ## Spellings -/

theorem Spelling.exponentPart {e : Option (Bool × List Char)} (hne : ∀ d ∈ e, d.2 ≠ [])
    (hd : ∀ d ∈ e, ∀ c ∈ d.2, c.isDigit) : Number.ExponentPart (powered e) (powerOf e) := by
  cases e with
  | none => exact .absent
  | some d =>
    obtain ⟨negative, digits⟩ := d
    cases negative with
    | false => exact .present (.inl rfl) .plus (hne _ rfl) (hd _ rfl)
    | true => exact .present (.inl rfl) .minus (hne _ rfl) (hd _ rfl)

/-- A spelling is a decimal of its coefficient and its power of ten. -/
theorem Spelling.unsigned (s : Spelling) : Number.Unsigned s.chars s.coefficient s.power := by
  have hexponent := exponentPart s.exponent_ne_nil s.isDigit_exponent
  rw [chars, pointed, List.append_assoc]
  by_cases hfraction : s.fraction = []
  · simpa [hfraction, coefficient, power] using
      Number.Unsigned.whole s.whole_ne_nil s.isDigit_whole hexponent
  · rw [if_neg hfraction]
    exact .pointed (fun h => s.whole_ne_nil h.1) s.isDigit_whole s.isDigit_fraction hexponent

namespace Number

variable {cs : List Char} {x : Number}

/-- A spelling behind a sign reads as the number that it stands for. -/
theorem readTrimmed?_spelling (s : Spelling) (negative : Bool) :
    readTrimmed? ((if negative then ['-'] else []) ++ s.chars) = some (s.toNumber negative) := by
  have hsign : SignPart (if negative then ['-'] else []) negative := by
    cases negative with
    | false => exact .absent
    | true => exact .minus
  exact readTrimmed?_eq_some_iff.2 (.decimal hsign s.unsigned (isNearest_iff.2 rfl))

/-! ## Digits -/

/-- A run of digits reads as the whole number of these digits. -/
theorem read?_of_digits (hne : cs ≠ []) (hd : ∀ c ∈ cs, c.isDigit) :
    read? (String.ofList cs) = some (ofDecimal false (Nat.ofDigitChars 10 cs 0) 0) := by
  have htrim : Text.trim cs = cs := by
    refine Text.trim_of_ends (fun c hc => ?_) (fun c hc => ?_)
    · exact Text.not_isBlank_of_isDigit (hd c (List.mem_of_head? hc))
    · exact Text.not_isBlank_of_isDigit (hd c (List.mem_reverse.1 (List.mem_of_head? hc)))
  have hunsigned : Unsigned cs (Nat.ofDigitChars 10 cs 0) 0 := by
    simpa using Unsigned.whole hne hd .absent
  rw [read?, String.toList_ofList, htrim]
  exact readTrimmed?_eq_some_iff.2 (.decimal .absent hunsigned (isNearest_iff.2 rfl))

/-- Digits and the letter of an exponent read as no number. -/
theorem read?_digits_letter {letter : Char} (hne : cs ≠ []) (hd : ∀ c ∈ cs, c.isDigit)
    (hletter : letter = 'e' ∨ letter = 'E') : read? (String.ofList (cs ++ [letter])) = none := by
  obtain ⟨first, rest, rfl⟩ := List.exists_cons_of_ne_nil hne
  have hfirst := hd first List.mem_cons_self
  have hchars : ∀ c ∈ first :: rest ++ [letter], IsDecimalChar c := by
    refine List.forall_mem_append.2 ⟨fun c hc => .inl (hd c hc), List.forall_mem_singleton.2 ?_⟩
    exact .inr (by rcases hletter with rfl | rfl <;> decide)
  have htrim : Text.trim (first :: rest ++ [letter]) = first :: rest ++ [letter] := by
    refine Text.trim_of_ends (Text.stops_cons.2 (Text.not_isBlank_of_isDigit hfirst)) ?_
    rw [List.reverse_concat, Text.stops_cons]
    rcases hletter with rfl | rfl <;> decide
  have hsign : takeSign (first :: rest ++ [letter]) = (false, first :: rest ++ [letter]) := by
    refine SignPart.absent.takeSign fun c hc => ?_
    obtain rfl : first = c := by simpa using hc
    exact ne_sign_of_isDigit hfirst
  have hstop : Text.Stops Char.isDigit [letter] := by
    rw [Text.stops_cons]
    rcases hletter with rfl | rfl <;> decide
  rw [read?, String.toList_ofList, htrim, readTrimmed?_of_isDecimalChar (by simp) hchars]
  simp only [readDecimal?, hsign, Text.takeWhile_run hd hstop, Text.dropWhile_run hd hstop]
  rcases hletter with rfl | rfl <;> rfl

/-! ## Not a number -/

theorem ofRank_ne_nan (negative : Bool) (rank : Nat) : ofRank negative rank ≠ .nan := by
  rw [ofRank]
  split <;> simp

theorem IsNearest.ne_nan {negative : Bool} {c : Nat} {e : Int} (h : IsNearest negative c e x) :
    x ≠ .nan := by
  obtain ⟨rank, -, rfl⟩ := h
  exact ofRank_ne_nan negative rank

theorem Numeral.ne_nan {Whole : Nat → List Char → Nat → Prop} (h : Numeral Whole cs x) :
    x ≠ .nan := by
  cases h with
  | blank => exact ofRank_ne_nan _ _
  | infinity => simp
  | decimal _ _ hx => exact hx.ne_nan
  | based _ _ hx => exact hx.ne_nan

/-- A text that reads as anything reads as a number, which may be infinite. -/
theorem read?_ne_nan (s : String) : read? s ≠ some .nan :=
  fun h => (readTrimmed?_eq_some_iff.1 h).ne_nan rfl

end Number

end Criteria

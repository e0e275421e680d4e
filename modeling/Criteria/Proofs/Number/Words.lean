import Criteria.Proofs.Number.Reading

/-!
# Words of numerals

A word that starts a numeral is all of it, or is cut off in front of a sign or a point. Where it
is cut off in front of a point, it is a whole number by itself; where it is cut off in front of
the sign of an exponent, or of a sign behind the letter of a base, it is no number.

* `numeral_of_read?`: what reads as a number is a numeral;
* `Numeral.isNumeralChar`: the characters of a numeral;
* `Numeral.firstWord`: the word that a numeral starts with.
-/

namespace Criteria.Number

variable {cs : List Char} {x : Number}

/-- What reads as a number is a numeral between blanks. -/
theorem numeral_of_read? {s : String} (h : read? s = some x) :
    Numeral IsTaken (Text.trim s.toList) x := readTrimmed?_eq_some_iff.1 h

/-! ## Characters -/

theorem isWordChar_of_digitValue? {base v : Nat} {c : Char} (h : digitValue? base c = some v) :
    Text.isWordChar c := by
  simp only [digitValue?] at h
  obtain ⟨h, -⟩ := Option.filter_eq_some_iff.1 h
  rw [Text.isWordChar_iff]
  split at h
  · rename_i hdigit
    exact .inl (Char.isDigit_iff_toNat.1 hdigit)
  · split at h
    · rename_i hlower
      have : 97 ≤ c.toNat ∧ c.toNat ≤ 102 := hlower
      omega
    · split at h
      · rename_i hupper
        have : 65 ≤ c.toNat ∧ c.toNat ≤ 70 := hupper
        omega
      · simp at h

theorem IsWhole.isWordChar {base n : Nat} (h : IsWhole base cs n) :
    ∀ c ∈ cs, Text.isWordChar c := by
  obtain ⟨-, values, hvalues, -⟩ := h
  induction hvalues with
  | nil => simp
  | cons hv _ ih => exact List.forall_mem_cons.2 ⟨isWordChar_of_digitValue? hv, ih⟩

/-- The characters of numerals: those of words, signs and the point. -/
def IsNumeralChar (c : Char) : Prop := Text.isWordChar c ∨ c ∈ ['+', '-', '.']

theorem IsDecimalChar.isNumeralChar {c : Char} (h : IsDecimalChar c) : IsNumeralChar c := by
  rcases h with hdigit | hother
  · exact .inl (Text.isWordChar_of_isDigit hdigit)
  · simp only [List.mem_cons, List.not_mem_nil, or_false] at hother
    rcases hother with rfl | rfl | rfl | rfl | rfl
    · exact .inr (by decide)
    · exact .inl (by decide)
    · exact .inl (by decide)
    · exact .inr (by decide)
    · exact .inr (by decide)

theorem isWordChar_of_mem_bases {letter : Char} {base : Nat} (h : (letter, base) ∈ bases) :
    Text.isWordChar letter :=
  bases_cases h (by decide)

theorem IsTaken.isNumeralChar {base n : Nat} (h : IsTaken base cs n) :
    ∀ c ∈ cs, IsNumeralChar c := by
  obtain ⟨hdigits | ⟨digits, rfl, hdigits⟩, -⟩ := h
  · exact fun c hc => .inl (hdigits.isWordChar c hc)
  · exact List.forall_mem_cons.2 ⟨.inr (by decide), fun c hc => .inl (hdigits.isWordChar c hc)⟩

theorem Numeral.isNumeralChar (h : Numeral IsTaken cs x) : ∀ c ∈ cs, IsNumeralChar c := by
  cases h with
  | blank => simp
  | infinity hsign =>
    refine List.forall_mem_append.2
      ⟨fun c hc => (hsign.isDecimalChar c hc).isNumeralChar, fun c hc => .inl ?_⟩
    exact List.all_eq_true.1 (show "Infinity".toList.all Text.isWordChar by decide) c hc
  | decimal hsign hrest =>
    exact List.forall_mem_append.2 ⟨fun c hc => (hsign.isDecimalChar c hc).isNumeralChar,
      fun c hc => (hrest.isDecimalChar c hc).isNumeralChar⟩
  | based hletter hdigits =>
    exact List.forall_mem_cons.2 ⟨.inl (by decide), List.forall_mem_cons.2
      ⟨.inl (isWordChar_of_mem_bases hletter), hdigits.isNumeralChar⟩⟩

/-! ## Words -/

/-- The ways in which a numeral can start with a word: there is none, it is all of the numeral,
    it is the digits in front of a point, or it is no numeral by itself. -/
inductive FirstWord (cs : List Char) : Prop
  | none : Text.word cs = [] → FirstWord cs
  | all : (∀ c ∈ cs, Text.isWordChar c) → FirstWord cs
  | point {whole rest : List Char} : whole ≠ [] → (∀ c ∈ whole, c.isDigit) →
    cs = whole ++ '.' :: rest → FirstWord cs
  | unread : read? (String.ofList (Text.word cs)) = Option.none → FirstWord cs

theorem SignPart.eq_nil_or_stops {sign : List Char} {negative : Bool} (h : SignPart sign negative)
    (cs : List Char) :
    sign = [] ∨ Text.Stops Text.isWordChar (sign ++ cs) := by
  cases h with
  | absent => exact .inl rfl
  | plus => exact .inr (Text.stops_cons.2 (by decide))
  | minus => exact .inr (Text.stops_cons.2 (by decide))

/-- Behind digits there may be an exponent, and its sign ends the word. -/
theorem firstWord_of_exponent {digits exponent : List Char} {e : Int} (hne : digits ≠ [])
    (hd : ∀ c ∈ digits, c.isDigit) (h : ExponentPart exponent e) :
    FirstWord (digits ++ exponent) := by
  have hword : ∀ c ∈ digits, Text.isWordChar c := fun c hc => Text.isWordChar_of_isDigit (hd c hc)
  cases h with
  | absent => exact .all (by rwa [List.append_nil])
  | @present letter sign power negative hletter hsign hpower hdigits =>
    have hletter' : Text.isWordChar letter := by rcases hletter with rfl | rfl <;> decide
    rcases hsign.eq_nil_or_stops power with rfl | hstop
    · refine .all (List.forall_mem_append.2 ⟨hword, List.forall_mem_cons.2 ⟨hletter', ?_⟩⟩)
      exact fun c hc => Text.isWordChar_of_isDigit (hdigits c hc)
    · refine .unread ?_
      have hrun : ∀ c ∈ digits ++ [letter], Text.isWordChar c :=
        List.forall_mem_append.2 ⟨hword, List.forall_mem_singleton.2 hletter'⟩
      rw [List.append_cons, Text.word_append hrun hstop]
      exact read?_digits_letter hne hd hletter

theorem Unsigned.firstWord {c : Nat} {e : Int} (h : Unsigned cs c e) : FirstWord cs := by
  cases h with
  | whole hne hdigits hexponent => exact firstWord_of_exponent hne hdigits hexponent
  | @pointed whole fraction exponent e hne hwhole hfraction hexponent =>
    by_cases hnil : whole = []
    · subst hnil
      exact .none (Text.Stops.word (Text.stops_cons.2 (by decide)))
    · exact .point hnil hwhole rfl

/-- A plus sign behind the letter of a base ends the word, which has no digits then. -/
theorem read?_baseLetter {letter : Char} {base : Nat} (h : (letter, base) ∈ bases) :
    read? (String.ofList ['0', letter]) = none :=
  bases_cases h (by decide)

theorem IsTaken.firstWord {letter : Char} {base n : Nat} (hletter : (letter, base) ∈ bases)
    (h : IsTaken base cs n) : FirstWord ('0' :: letter :: cs) := by
  obtain ⟨hdigits | ⟨digits, rfl, hdigits⟩, -⟩ := h
  · exact .all (List.forall_mem_cons.2 ⟨by decide, List.forall_mem_cons.2
      ⟨isWordChar_of_mem_bases hletter, hdigits.isWordChar⟩⟩)
  · refine .unread ?_
    have hrun : ∀ c ∈ ['0', letter], Text.isWordChar c :=
      List.forall_mem_cons.2 ⟨by decide,
        List.forall_mem_singleton.2 (isWordChar_of_mem_bases hletter)⟩
    have hstop : Text.Stops Text.isWordChar ('+' :: digits) := Text.stops_cons.2 (by decide)
    rw [show '0' :: letter :: '+' :: digits = ['0', letter] ++ '+' :: digits from rfl,
      Text.word_append hrun hstop]
    exact read?_baseLetter hletter

theorem Numeral.firstWord (h : Numeral IsTaken cs x) : FirstWord cs := by
  cases h with
  | blank => exact .none rfl
  | infinity hsign =>
    rcases hsign.eq_nil_or_stops "Infinity".toList with rfl | hstop
    · exact .all (List.all_eq_true.1 (by decide))
    · exact .none hstop.word
  | @decimal sign rest _ _ _ _ hsign hrest =>
    rcases hsign.eq_nil_or_stops rest with rfl | hstop
    · exact hrest.firstWord
    · exact .none hstop.word
  | based hletter hdigits => exact hdigits.firstWord hletter

end Criteria.Number

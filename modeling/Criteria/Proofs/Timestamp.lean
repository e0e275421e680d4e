import Criteria.Proofs.Number.Spelling
import Criteria.Proofs.Text.Run
import Criteria.Timestamp

/-!
# Timestamps read back

The text of a timestamp has as many digits in each part as are read of it, and no
blanks, so that it reads as the timestamp.

* `takeNumber?_padded`: a number with leading zeros is read back;
* `read?_text`: the text of a timestamp reads as the timestamp.
-/

namespace Criteria.Timestamp

/-! ## Numbers with leading zeros -/

theorem padded_ne_nil (width n : Nat) : padded width n ≠ [] := by
  simp [padded, Nat.toDigits_ne_nil]

theorem isDigit_padded (width n : Nat) : ∀ c ∈ padded width n, c.isDigit :=
  List.forall_mem_append.2 ⟨Number.isDigit_of_mem_zeros, Number.isDigit_of_mem_toDigits⟩

theorem ofDigitChars_padded (width n : Nat) : Nat.ofDigitChars 10 (padded width n) 0 = n := by
  simp only [padded]
  rw [Nat.ofDigitChars_append, Nat.ofDigitChars_replicate_zero, Nat.mul_zero,
    Nat.ofDigitChars_ten_toDigits]

theorem length_padded {width n : Nat} (hw : 0 < width) (h : n < Nat.pow 10 width) :
    (padded width n).length = width := by
  have : (Nat.toDigits 10 n).length ≤ width := (Nat.length_toDigits_le_iff (by decide) hw).2 h
  simp only [padded, List.length_append, List.length_replicate]
  omega

/-- A padded number starts with a digit. -/
theorem exists_padded_eq (width n : Nat) : ∃ c cs, padded width n = c :: cs ∧ c.isDigit := by
  obtain ⟨c, cs, hc⟩ := List.exists_cons_of_ne_nil (padded_ne_nil width n)
  exact ⟨c, cs, hc, isDigit_padded width n c (by simp [hc])⟩

theorem trimStart_padded (width n : Nat) (rest : List Char) :
    Text.trimStart (padded width n ++ rest) = padded width n ++ rest := by
  obtain ⟨c, cs, hc, hdigit⟩ := exists_padded_eq width n
  rw [hc]
  exact Text.trimStart_of_stops (Text.stops_cons.2 (Text.not_isBlank_of_isDigit hdigit))

/-- A number is read back if no more digits follow it than are wanted. -/
theorem takeNumber?_padded {width most n : Nat} {rest : List Char}
    (hl : (padded width n).length ≤ most) (hr : Text.Stops Char.isDigit rest) :
    takeNumber? most (padded width n ++ rest) = some (n, rest) := by
  have hstop : Text.Stops Char.isDigit (rest.take (most - (padded width n).length)) := by
    intro c hc
    rw [List.head?_take] at hc
    split at hc
    · simp at hc
    · exact hr c hc
  simp only [takeNumber?, List.take_append, List.take_of_length_le hl,
    Text.takeWhile_run (isDigit_padded width n) hstop, padded_ne_nil, if_false,
    ofDigitChars_padded, List.drop_left']

theorem takePart?_padded {width n : Nat} {rest : List Char} (hw : 0 < width)
    (h : n < Nat.pow 10 width) (hr : Text.Stops Char.isDigit rest) :
    takePart? width (padded width n ++ rest) = some (n, rest) := by
  rw [takePart?, trimStart_padded]
  exact takeNumber?_padded (length_padded hw h).le hr

theorem afterSeparator?_cons {c : Char} (h : ¬Text.isBlank c) (rest : List Char) :
    afterSeparator? c (c :: rest) = some rest := by
  rw [afterSeparator?, Text.trimStart_of_stops (Text.stops_cons.2 h)]
  exact if_pos rfl

/-! ## Years and fractions -/

theorem takeYear?_yearChars (year : Int) {rest : List Char} (hr : Text.Stops Char.isDigit rest) :
    takeYear? (yearChars year ++ rest) = some (year, rest) := by
  have hlength (n : Nat) : (padded 4 n).length ≤ (padded 4 n ++ rest).length := by simp
  rw [yearChars]
  split
  · rename_i hyear
    have hlt : year.toNat < Nat.pow 10 4 := by
      have : Nat.pow 10 4 = 10000 := rfl
      omega
    have htake := takeNumber?_padded (length_padded (by decide) hlt).le hr
    obtain ⟨c, cs, hc, hdigit⟩ := exists_padded_eq 4 year.toNat
    rw [takeYear?, trimStart_padded]
    split
    · rename_i heq
      rw [hc, List.cons_append] at heq
      exact absurd (List.cons.inj heq).1 (Text.ne_of_isDigit hdigit (by decide))
    · rename_i heq
      rw [hc, List.cons_append] at heq
      exact absurd (List.cons.inj heq).1 (Text.ne_of_isDigit hdigit (by decide))
    · rw [htake, Option.map_some]
      exact congrArg (fun y => some (y, rest)) (Int.toNat_of_nonneg hyear.1)
  · split
    · have hstop : Text.Stops Text.isBlank ('-' :: (padded 4 year.natAbs ++ rest)) :=
        Text.stops_cons.2 (by decide)
      simp only [List.cons_append, takeYear?, Text.trimStart_of_stops hstop,
        takeNumber?_padded (hlength _) hr, Option.map_some]
      congr
      omega
    · have hstop : Text.Stops Text.isBlank ('+' :: (padded 4 year.natAbs ++ rest)) :=
        Text.stops_cons.2 (by decide)
      simp only [List.cons_append, takeYear?, Text.trimStart_of_stops hstop,
        takeNumber?_padded (hlength _) hr, Option.map_some]
      congr
      omega

/-- A fraction is read with zeros up to the ninth digit. -/
theorem takeFraction?_padded {width n : Nat} {rest : List Char} (hw : 0 < width) (h9 : width ≤ 9)
    (h : n < Nat.pow 10 width) (hr : Text.Stops Char.isDigit rest) :
    takeFraction? ('.' :: (padded width n ++ rest)) = some (n * Nat.pow 10 (9 - width), rest) := by
  have hlen := length_padded hw h
  have htake : (padded width n ++ List.replicate 9 '0').take 9 =
      padded width n ++ List.replicate (9 - width) '0' := by
    rw [List.take_append, List.take_of_length_le (by omega), hlen, List.take_replicate,
      Nat.min_eq_left (by omega)]
  simp only [takeFraction?, Text.takeWhile_run (isDigit_padded width n) hr, padded_ne_nil,
    if_false, htake, List.drop_left', Nat.ofDigitChars_append, ofDigitChars_padded,
    Nat.ofDigitChars_replicate_zero, Nat.mul_comm n]
  rfl

theorem takeFraction?_fractionChars {nano : Nat} (h : nano < nanosPerSecond) {rest : List Char}
    (hr : Text.Stops Char.isDigit rest) (hp : Text.Stops (· == '.') rest) :
    takeFraction? (fractionChars nano ++ rest) = some (nano, rest) := by
  have hlimit : nanosPerSecond = 1000000000 := rfl
  rw [fractionChars]
  split
  · subst nano
    rw [List.nil_append]
    unfold takeFraction?
    split
    · exact absurd rfl (Text.stops_cons.1 hp)
    · rfl
  · split
    · rw [List.cons_append, takeFraction?_padded (by decide) (by decide) (by change _ < 1000; omega)
        hr, show Nat.pow 10 (9 - 3) = 1000000 from rfl]
      congr
      omega
    · split
      · rw [List.cons_append, takeFraction?_padded (by decide) (by decide)
          (by change _ < 1000000; omega) hr, show Nat.pow 10 (9 - 6) = 1000 from rfl]
        congr
        omega
      · rw [List.cons_append, takeFraction?_padded (by decide) (by decide)
          (by change _ < 1000000000; omega) hr, show Nat.pow 10 (9 - 9) = 1 from rfl, Nat.mul_one]

/-! ## Texts -/

/-- A local time at no offset is that time. -/
theorem ofLocal?_zero (t : Timestamp) :
    ofLocal? t.year t.month t.day t.hour t.minute t.second t.nano 0 = some t := by
  obtain ⟨-, -, -, hhour, hminute, -⟩ := t.sound
  have hlow : ¬((t.hour : Int) * 60 + t.minute - 0 < 0) := by omega
  have hhigh : ¬(1440 ≤ (t.hour : Int) * 60 + t.minute - 0) := by omega
  have hminutes : (((t.hour : Int) * 60 + t.minute - 0) % 1440).toNat = t.hour * 60 + t.minute := by
    omega
  have hdiv : (t.hour * 60 + t.minute) / 60 = t.hour := by omega
  have hmod : (t.hour * 60 + t.minute) % 60 = t.minute := by omega
  simp only [ofLocal?, if_pos t.sound, if_neg hlow, if_neg hhigh, hminutes, hdiv, hmod]
  exact dif_pos t.sound

theorem daysIn_le (year : Int) (month : Nat) : daysIn year month ≤ 31 := by
  rw [daysIn]
  split
  · split <;> omega
  · split <;> omega

/-- No digit stands where a fraction may. -/
theorem stops_fractionChars (nano : Nat) (rest : List Char) (hr : Text.Stops Char.isDigit rest) :
    Text.Stops Char.isDigit (fractionChars nano ++ rest) := by
  rw [fractionChars]
  split
  · exact hr
  · split
    · exact Text.stops_cons.2 (by decide)
    · split <;> exact Text.stops_cons.2 (by decide)

/-- What comes of a part that is read is what comes of its value. -/
theorem bind_of_eq_some {α β : Type} {part : Option α} {value : α} {f : α → Option β}
    {result : Option β} (h : part = some value) (hf : f value = result) : part >>= f = result :=
  h ▸ hf

/-- The text of a timestamp reads as the timestamp. -/
theorem read?_text (t : Timestamp) : read? t.text = some t := by
  have hlimit : nanosPerSecond = 1000000000 := rfl
  have hstop {c : Char} (rest : List Char) (h : ¬c.isDigit) : Text.Stops Char.isDigit (c :: rest) :=
    Text.stops_cons.2 h
  obtain ⟨-, ⟨hmonth₁, hmonth₂⟩, ⟨hday₁, hday₂⟩, hhour, hminute, hsecond, hnano, hleap⟩ := t.sound
  have hday : t.day < 100 := by
    have := daysIn_le t.year t.month
    omega
  have hend : Text.Stops Char.isDigit ['Z'] := hstop [] (by decide)
  have htext : t.text.toList = yearChars t.year ++ '-' :: (padded 2 t.month ++ '-' ::
      (padded 2 t.day ++ 'T' :: (padded 2 t.hour ++ ':' :: (padded 2 t.minute ++ ':' ::
        (padded 2 (t.second + t.nano / nanosPerSecond) ++
          (fractionChars (t.nano % nanosPerSecond) ++ ['Z'])))))) := by
    simp [text]
  have hZ : readOffset? (Text.trimStart ['Z']) = some 0 := by decide
  have hpart {n : Nat} {c : Char} (hn : n < 100) (hc : ¬c.isDigit) (rest : List Char) :
      takePart? 2 (padded 2 n ++ c :: rest) = some (n, c :: rest) :=
    takePart?_padded (by decide) hn (hstop rest hc)
  have hyear (rest : List Char) := takeYear?_yearChars t.year
    (hstop rest (show ¬ '-'.isDigit by decide))
  have hmonth := hpart (show t.month < 100 by omega) (show ¬ '-'.isDigit by decide)
  have hday := hpart hday (show ¬ 'T'.isDigit by decide)
  have hhour := hpart (show t.hour < 100 by omega) (show ¬ ':'.isDigit by decide)
  have hminute := hpart (show t.minute < 100 by omega) (show ¬ ':'.isDigit by decide)
  have hdash (rest : List Char) : afterSeparator? '-' ('-' :: rest) = some rest :=
    afterSeparator?_cons (by decide) rest
  have hcolon (rest : List Char) : afterSeparator? ':' (':' :: rest) = some rest :=
    afterSeparator?_cons (by decide) rest
  -- A leap second is written as second sixty, and its nanoseconds as those of a second.
  have hnanos : t.nano / nanosPerSecond = 0 ∨ t.nano / nanosPerSecond = 1 ∧ t.second = 59 := by
    rw [hlimit] at *
    omega
  have hsecond' := takePart?_padded (by decide)
    (show t.second + t.nano / nanosPerSecond < Nat.pow 10 2 by change _ < 100; omega)
    (stops_fractionChars (t.nano % nanosPerSecond) _ hend)
  have hnano' := takeFraction?_fractionChars (Nat.mod_lt t.nano (by decide : 0 < nanosPerSecond))
    hend (Text.stops_cons.2 (by decide))
  have hleap' : (t.second + t.nano / nanosPerSecond) / 60 = t.nano / nanosPerSecond := by omega
  have hle : t.second + t.nano / nanosPerSecond ≤ 60 := by omega
  rw [read?, htext, readChars?]
  refine bind_of_eq_some (hyear _) (bind_of_eq_some (hdash _) ?_)
  refine bind_of_eq_some (hmonth _) (bind_of_eq_some (hdash _) ?_)
  refine bind_of_eq_some (hday _) (bind_of_eq_some rfl ?_)
  refine bind_of_eq_some (hhour _) (bind_of_eq_some (hcolon _) ?_)
  refine bind_of_eq_some (hminute _) (bind_of_eq_some (hcolon _) ?_)
  refine bind_of_eq_some hsecond' (bind_of_eq_some hnano' (bind_of_eq_some hZ ?_))
  simp only [hleap', if_pos hle, Nat.add_sub_cancel, Nat.mod_add_div', ofLocal?_zero]

end Criteria.Timestamp

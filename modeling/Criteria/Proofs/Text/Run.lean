import Criteria.Text.Blank
import Criteria.Text.Word

/-!
# Runs of characters

A run of characters of one class ends where a character of another class follows,
and blanks are taken off a text only where they stand at its ends.

* `takeWhile_run`, `dropWhile_run`: taking a run off a text;
* `word_append`, `word_eq_self`: the word that a text starts with;
* `trim_of_ends`: a text with other characters at its ends keeps all of them.
-/

namespace Criteria.Text

/-! ## Runs -/

section Run

variable {p : Char → Bool} {cs rest : List Char}

/-- What a run is taken off must not go on with it. -/
def Stops (p : Char → Bool) (rest : List Char) : Prop := ∀ c ∈ rest.head?, ¬p c

@[simp]
theorem stops_nil : Stops p [] := by simp [Stops]

@[simp]
theorem stops_cons {c : Char} : Stops p (c :: rest) ↔ ¬p c := by simp [Stops]

theorem Stops.append (h : Stops p cs) (hne : cs ≠ []) : Stops p (cs ++ rest) := by
  cases cs with
  | nil => exact absurd rfl hne
  | cons c cs => exact stops_cons.2 (stops_cons.1 h)

theorem Stops.of_append (h : Stops p (cs ++ rest)) : Stops p cs := by
  cases cs with
  | nil => exact stops_nil
  | cons c cs => exact stops_cons.2 (stops_cons.1 h)

theorem stops_dropWhile (p : Char → Bool) (cs : List Char) : Stops p (cs.dropWhile p) := by
  intro c hc
  have := List.head?_dropWhile_not p cs
  rw [Option.mem_def.1 hc] at this
  simpa using this

theorem Stops.dropWhile (h : Stops p rest) : rest.dropWhile p = rest := by
  cases rest with
  | nil => rfl
  | cons c rest => exact List.dropWhile_cons_of_neg (h c rfl)

theorem Stops.takeWhile (h : Stops p rest) : rest.takeWhile p = [] := by
  cases rest with
  | nil => rfl
  | cons c rest => exact List.takeWhile_cons_of_neg (h c rfl)

theorem takeWhile_run (h : ∀ c ∈ cs, p c) (hr : Stops p rest) : (cs ++ rest).takeWhile p = cs := by
  rw [List.takeWhile_append_of_pos h, hr.takeWhile, List.append_nil]

theorem dropWhile_run (h : ∀ c ∈ cs, p c) (hr : Stops p rest) :
    (cs ++ rest).dropWhile p = rest := by
  rw [List.dropWhile_append_of_pos h, hr.dropWhile]

end Run

/-! ## Words -/

section Word

variable {c : Char} {cs rest : List Char}

/-- The places of the characters of words: digits, letters and the underscore. -/
theorem isWordChar_iff : isWordChar c ↔
    (48 ≤ c.toNat ∧ c.toNat ≤ 57) ∨ (65 ≤ c.toNat ∧ c.toNat ≤ 90) ∨
      (97 ≤ c.toNat ∧ c.toNat ≤ 122) ∨ c.toNat = 95 := by
  change ((decide (65 ≤ c.val ∧ c.val ≤ 90) || (decide (97 ≤ c.val) && decide (c.val ≤ 122))) ||
    (decide (48 ≤ c.val) && decide (c.val ≤ 57)) || c == '_') = true ↔ _
  have hval : c.val.toNat = c.toNat := rfl
  have hunderscore : c = '_' ↔ c.toNat = 95 := by
    rw [← Char.toNat_inj, show '_'.toNat = 95 from rfl]
  simp only [Bool.or_eq_true, Bool.and_eq_true, decide_eq_true_eq, beq_iff_eq,
    UInt32.le_iff_toNat_le, hval, UInt32.reduceToNat, hunderscore]
  omega

theorem not_isBlank_of_isWordChar (h : isWordChar c) : ¬isBlank c := by
  have := isWordChar_iff.1 h
  simp only [isBlank, Bool.or_eq_true, Bool.and_eq_true, decide_eq_true_eq, beq_iff_eq]
  omega

/-- A word goes as far as the first character that is not of words. -/
theorem word_append (hw : ∀ c ∈ cs, isWordChar c) (hs : Stops isWordChar rest) :
    word (cs ++ rest) = cs := takeWhile_run hw hs

theorem word_eq_self (hw : ∀ c ∈ cs, isWordChar c) : word cs = cs := by
  simpa using word_append hw stops_nil

theorem Stops.word (hs : Stops isWordChar rest) : Text.word rest = [] := hs.takeWhile

theorem isWordChar_of_isDigit (h : c.isDigit) : isWordChar c := by
  simp [isWordChar, Char.isAlphanum, h]

theorem not_isBlank_of_isDigit (h : c.isDigit) : ¬isBlank c :=
  not_isBlank_of_isWordChar (isWordChar_of_isDigit h)

theorem ne_of_isDigit {d : Char} (h : c.isDigit) (hd : ¬d.isDigit) : c ≠ d := by
  rintro rfl
  exact hd h

end Word

/-! ## Blanks at the ends -/

variable {cs : List Char}

theorem trimStart_of_stops (h : Stops isBlank cs) : trimStart cs = cs := h.dropWhile

/-- The blanks in front of a text, and what is left of it without them. -/
theorem exists_blanks (cs : List Char) :
    ∃ blanks, cs = blanks ++ trimStart cs ∧ ∀ c ∈ blanks, isBlank c :=
  ⟨cs.takeWhile isBlank, List.takeWhile_append_dropWhile.symm,
    List.all_eq_true.1 List.all_takeWhile⟩

theorem trimStart_blank {c : Char} (h : isBlank c) (cs : List Char) :
    trimStart (c :: cs) = trimStart cs := List.dropWhile_cons_of_pos h

/-- A text that neither starts nor ends with a blank keeps all its characters. -/
theorem trim_of_ends (hs : Stops isBlank cs) (he : Stops isBlank cs.reverse) : trim cs = cs := by
  rw [trim, trimStart_of_stops hs, trimEnd, he.dropWhile, List.reverse_reverse]

/-- Blanks in front of a text are taken off. -/
theorem trim_append_of_forall (h : ∀ c ∈ cs, isBlank c) (ds : List Char) :
    trim (cs ++ ds) = trim ds := by
  rw [trim, trimStart, List.dropWhile_append_of_pos h]
  rfl

/-- A blank behind a text is taken off. -/
theorem trim_concat_of_isBlank {c : Char} (h : isBlank c) (cs : List Char) :
    trim (cs ++ [c]) = trim cs := by
  simp only [trim, trimStart, List.dropWhile_append]
  split
  · rename_i hall
    have : cs.dropWhile isBlank = [] := by simpa using hall
    rw [this, List.dropWhile_cons_of_pos h]
    rfl
  · rw [trimEnd, List.reverse_concat, List.dropWhile_cons_of_pos h, trimEnd]

/-- The blanks behind a text, and what is left of it without them. -/
theorem exists_blanks_behind (cs : List Char) :
    ∃ blanks, cs = trimEnd cs ++ blanks ∧ ∀ c ∈ blanks, isBlank c := by
  obtain ⟨blanks, heq, hblank⟩ := exists_blanks cs.reverse
  refine ⟨blanks.reverse, ?_, fun c hc => hblank c (List.mem_reverse.1 hc)⟩
  rw [trimEnd, ← List.reverse_append]
  exact List.reverse_eq_iff.1 heq

theorem trimEnd_append_blanks {blanks : List Char} (hs : Stops isBlank cs.reverse)
    (hb : ∀ c ∈ blanks, isBlank c) : trimEnd (cs ++ blanks) = cs := by
  have hb : ∀ c ∈ blanks.reverse, isBlank c := fun c hc => hb c (List.mem_reverse.1 hc)
  rw [trimEnd, List.reverse_append, dropWhile_run hb hs, List.reverse_reverse]

/-- What is left of a text without the blanks behind it does not end with one. -/
theorem stops_reverse_trimEnd (cs : List Char) : Stops isBlank (trimEnd cs).reverse := by
  rw [trimEnd, List.reverse_reverse]
  exact stops_dropWhile isBlank cs.reverse

/-- What is left of a text without its blanks starts with none. -/
theorem stops_trim (cs : List Char) : Stops isBlank (trim cs) := by
  obtain ⟨blanks, heq, -⟩ := exists_blanks_behind (trimStart cs)
  have hstart := stops_dropWhile isBlank cs
  change Stops isBlank (trimStart cs) at hstart
  rw [heq] at hstart
  exact hstart.of_append

/-- A text is what is left of it without its blanks, between these blanks. -/
theorem exists_trim_eq (cs : List Char) :
    ∃ blanks blanks', cs = blanks ++ (trim cs ++ blanks') ∧ (∀ c ∈ blanks, isBlank c) ∧
      ∀ c ∈ blanks', isBlank c := by
  obtain ⟨blanks, heq, hblank⟩ := exists_blanks cs
  obtain ⟨blanks', heq', hblank'⟩ := exists_blanks_behind (trimStart cs)
  refine ⟨blanks, blanks', ?_, hblank, hblank'⟩
  rw [trim, ← heq', ← heq]

theorem trim_infix (cs : List Char) : trim cs <:+: cs := by
  have hstart : trimStart cs <:+ cs := List.dropWhile_suffix _
  have hend : trimEnd (trimStart cs) <+: trimStart cs := by
    rw [← List.reverse_suffix, trimEnd, List.reverse_reverse]
    exact List.dropWhile_suffix _
  exact hend.isInfix.trans hstart.isInfix

end Criteria.Text

import Criteria.Condition.Reader
import Criteria.Proofs.Text.Run
import Mathlib.Data.List.TakeWhile

/-!
# Where a condition stands

What is found in a fragment stands in it as it is written: field, comparator and literal,
with blanks between them. A literal that stands bare is a word; any other stands between
two quotes.

* `Opens`, `literalOf?_eq_some_iff`: how the literal that starts a text is spelled;
* `exists_eq_of_startOf?`: the condition that starts a text;
* `Written.isBare_or_isQuoted`: the condition that is found in a fragment.
-/

namespace Criteria

theorem Comparator.char_of_ofChar? {c : Char} {comparator : Comparator}
    (h : ofChar? c = some comparator) : c = comparator.char := by
  unfold ofChar? at h
  split at h
  · exact congrArg char (Option.some.inj h)
  · exact congrArg char (Option.some.inj h)
  · exact congrArg char (Option.some.inj h)
  · simp at h

theorem Comparator.ofChar?_of_isWordChar {c : Char} (h : Text.isWordChar c) : ofChar? c = none := by
  unfold ofChar?
  split
  · exact absurd h (by decide)
  · exact absurd h (by decide)
  · exact absurd h (by decide)
  · rfl

theorem Comparator.not_isWordChar_char (op : Comparator) : ¬Text.isWordChar op.char := by
  cases op <;> decide

theorem Comparator.not_isBlank_char (op : Comparator) : ¬Text.isBlank op.char := by
  cases op <;> decide

namespace Condition

variable {cs fragment literal : List Char} {w : Written}

theorem not_isQuote_of_isWordChar {c : Char} (h : Text.isWordChar c) : ¬isQuote c := by
  intro hq
  simp only [isQuote, Bool.or_eq_true, beq_iff_eq] at hq
  rcases hq with rfl | rfl <;> exact absurd h (by decide)

theorem not_isBlank_of_isQuote {c : Char} (h : isQuote c) : ¬Text.isBlank c := by
  intro hb
  simp only [isQuote, Bool.or_eq_true, beq_iff_eq] at h
  rcases h with rfl | rfl <;> exact absurd hb (by decide)

/-! ## At the start of a text -/

/-- The literal starts the text: it is the longest word there, or stands between two quotes. -/
inductive Opens (literal : List Char) : List Char → Prop
  | bare {after : List Char} : literal ≠ [] → (∀ c ∈ literal, Text.isWordChar c) →
      Text.Stops Text.isWordChar after → Opens literal (literal ++ after)
  | quoted {opening closing : Char} {after : List Char} : isQuote opening → isQuote closing →
      literal ≠ [] → (∀ c ∈ literal, ¬isQuote c) →
        Opens literal (opening :: (literal ++ closing :: after))

namespace Opens

theorem ne_nil (h : Opens literal cs) : literal ≠ [] := by
  cases h with
  | bare hne _ _ => exact hne
  | quoted _ _ hne _ => exact hne

theorem not_isQuote (h : Opens literal cs) : ∀ c ∈ literal, ¬isQuote c := by
  cases h with
  | bare _ hword _ => exact fun c hc => not_isQuote_of_isWordChar (hword c hc)
  | quoted _ _ _ hquote => exact hquote

theorem isInfix (h : Opens literal cs) : literal <:+: cs := by
  cases h with
  | bare _ _ _ => exact (List.prefix_append _ _).isInfix
  | @quoted opening closing after _ _ _ _ => exact ⟨[opening], closing :: after, by simp⟩

/-- No blank is in front of a literal that starts a text. -/
theorem stops (h : Opens literal cs) : Text.Stops Text.isBlank cs := by
  cases h with
  | bare hne hword _ =>
    obtain ⟨first, tail, rfl⟩ := List.exists_cons_of_ne_nil hne
    exact Text.stops_cons.2 (Text.not_isBlank_of_isWordChar (hword first List.mem_cons_self))
  | quoted ho _ _ _ => exact Text.stops_cons.2 (not_isBlank_of_isQuote ho)

end Opens

theorem opens_of_literalOf? (h : literalOf? cs = some literal) : Opens literal cs := by
  unfold literalOf? at h
  split at h
  · simp at h
  · rename_i c rest
    simp only at h
    split at h
    · rename_i hopening
      split at h
      · simp at h
      · rename_i hne
        obtain ⟨hinside, hbehind⟩ := not_or.1 hne
        obtain rfl := Option.some.inj h
        obtain ⟨closing, after, hafter⟩ := List.exists_cons_of_ne_nil hbehind
        have hclosing : isQuote closing := by
          have := List.head?_dropWhile_not (!isQuote ·) rest
          simpa [hafter] using this
        have hquoted : Opens (rest.takeWhile (!isQuote ·))
            (c :: (rest.takeWhile (!isQuote ·) ++ closing :: after)) :=
          .quoted hopening hclosing hinside fun d hd => by simpa using List.mem_takeWhile_imp hd
        rwa [← hafter, List.takeWhile_append_dropWhile] at hquoted
    · split at h
      · simp at h
      · rename_i hword
        obtain rfl := Option.some.inj h
        have hbare : Opens (Text.word (c :: rest))
            (Text.word (c :: rest) ++ Text.afterWord (c :: rest)) :=
          .bare hword (fun _ => List.mem_takeWhile_imp) (Text.stops_dropWhile _ _)
        rwa [Text.word, Text.afterWord, List.takeWhile_append_dropWhile] at hbare

/-- The literal that starts a text is read. -/
theorem literalOf?_eq_some_iff : literalOf? cs = some literal ↔ Opens literal cs := by
  refine ⟨opens_of_literalOf?, fun h => ?_⟩
  cases h with
  | @bare after hne hword hstop =>
    obtain ⟨first, tail, rfl⟩ := List.exists_cons_of_ne_nil hne
    have hlongest : Text.word (first :: tail ++ after) = first :: tail :=
      Text.takeWhile_run hword hstop
    rw [List.cons_append] at hlongest ⊢
    rw [literalOf?, if_neg (not_isQuote_of_isWordChar (hword first List.mem_cons_self)),
      hlongest, if_neg hne]
  | @quoted opening closing after ho hc hne hquote =>
    have hinside : ∀ c ∈ literal, (!isQuote c) = true := fun c hc => by simpa using hquote c hc
    have hstop : Text.Stops (!isQuote ·) (closing :: after) :=
      Text.stops_cons.2 (by simpa using hc)
    rw [literalOf?, if_pos ho]
    simp only [Text.takeWhile_run hinside hstop, Text.dropWhile_run hinside hstop, hne,
      List.cons_ne_nil, or_self, if_false]

/-- The condition that starts a text stands there up to its literal. -/
theorem exists_eq_of_startOf? (h : startOf? cs = some w) :
    ∃ blanks blanks' rest, cs = w.field ++ (blanks ++ w.comparator.char :: (blanks' ++ rest)) ∧
      (w.field ≠ [] ∧ ∀ c ∈ w.field, Text.isWordChar c) ∧ (∀ c ∈ blanks, Text.isBlank c) ∧
      (∀ c ∈ blanks', Text.isBlank c) ∧ literalOf? rest = some w.literal := by
  rw [startOf?] at h
  split at h
  · simp at h
  · rename_i hword
    split at h
    · simp at h
    · rename_i c rest hrest
      split at h
      · rename_i comparator literal hcomparator hliteral
        obtain rfl := Option.some.inj h
        obtain ⟨blanks, hblanks, hblank⟩ := Text.exists_blanks (Text.afterWord cs)
        obtain ⟨blanks', hblanks', hblank'⟩ := Text.exists_blanks rest
        refine ⟨blanks, blanks', Text.trimStart rest, ?_,
          ⟨hword, fun _ => List.mem_takeWhile_imp⟩, hblank, hblank', hliteral⟩
        rw [← Comparator.char_of_ofChar? hcomparator, ← hblanks', ← hrest, ← hblanks]
        exact List.takeWhile_append_dropWhile.symm
      · simp at h

/-- The field and the literal of the condition that starts a text stand in it, and the literal
    has no quotes. -/
theorem of_startOf? (h : startOf? cs = some w) :
    (w.field ≠ [] ∧ (∀ c ∈ w.field, Text.isWordChar c) ∧ w.field <:+: cs) ∧ w.literal <:+: cs ∧
      ∀ c ∈ w.literal, ¬isQuote c := by
  obtain ⟨blanks, blanks', rest, rfl, ⟨hne, hword⟩, -, -, hliteral⟩ := exists_eq_of_startOf? h
  have hopens := opens_of_literalOf? hliteral
  refine ⟨⟨hne, hword, (List.prefix_append _ _).isInfix⟩, ?_, hopens.not_isQuote⟩
  exact hopens.isInfix.trans ⟨w.field ++ (blanks ++ w.comparator.char :: blanks'), [], by simp⟩

/-! ## In a fragment -/

/-- A condition that is found in a text starts at some place in it, and none starts before. -/
theorem exists_first_of_find? (h : find? cs = some w) :
    ∃ before suffix, cs = before ++ suffix ∧ startOf? suffix = some w ∧
      ∀ before' suffix', cs = before' ++ suffix' → before'.length < before.length →
        startOf? suffix' = none := by
  induction cs with
  | nil => simp [find?] at h
  | cons c rest ih =>
    rw [find?] at h
    split at h
    · rename_i w' hw
      exact ⟨[], c :: rest, rfl, hw.trans h, fun _ _ _ hlt => absurd hlt (Nat.not_lt_zero _)⟩
    · rename_i hnone
      obtain ⟨before, suffix, rfl, hw, hfirst⟩ := ih h
      refine ⟨c :: before, suffix, rfl, hw, fun before' suffix' heq hlt => ?_⟩
      cases before' with
      | nil => rwa [← show c :: (before ++ suffix) = suffix' from heq]
      | cons d before' =>
        exact hfirst before' suffix' (List.cons.inj heq).2 (Nat.lt_of_succ_lt_succ hlt)

theorem exists_suffix_of_find? (h : find? cs = some w) :
    ∃ suffix, suffix <:+ cs ∧ startOf? suffix = some w := by
  obtain ⟨before, suffix, rfl, hw, -⟩ := exists_first_of_find? h
  exact ⟨suffix, List.suffix_append _ _, hw⟩

theorem find?_eq_of_startOf? (h : startOf? cs = some w) : find? cs = some w := by
  cases cs with
  | nil => simp [startOf?, Text.word] at h
  | cons c rest => rw [find?, h]

/-- Where a condition starts within a text, one is found in it. -/
theorem exists_find?_of_startOf? (before : List Char) (h : startOf? cs = some w) :
    ∃ v, find? (before ++ cs) = some v := by
  induction before with
  | nil => exact ⟨w, find?_eq_of_startOf? h⟩
  | cons c before ih =>
    rw [List.cons_append, find?]
    split
    · exact ⟨_, rfl⟩
    · exact ih

namespace Written

/-- In a fragment, the condition stands with its literal spelled in this way. -/
def Stands (w : Written) (spelling fragment : List Char) : Prop :=
  ∃ before blanks blanks' after, (∀ c ∈ blanks, Text.isBlank c) ∧
    (∀ c ∈ blanks', Text.isBlank c) ∧
    fragment =
      before ++ (w.field ++ (blanks ++ w.comparator.char :: (blanks' ++ (spelling ++ after))))

/-- In a fragment, the condition stands with a word as its literal. -/
def IsBare (w : Written) (fragment : List Char) : Prop :=
  (∀ c ∈ w.literal, Text.isWordChar c) ∧ w.Stands w.literal fragment

/-- In a fragment, the condition stands with its literal between two quotes. -/
def IsQuoted (w : Written) (fragment : List Char) : Prop :=
  ∃ opening closing, isQuote opening ∧ isQuote closing ∧
    w.Stands (opening :: (w.literal ++ [closing])) fragment

/-- The condition that is found in a fragment stands there, with a literal of some
    characters. -/
theorem isBare_or_isQuoted (h : find? fragment = some w) :
    w.literal ≠ [] ∧ (w.IsBare fragment ∨ w.IsQuoted fragment) := by
  obtain ⟨suffix, ⟨before, rfl⟩, hstart⟩ := exists_suffix_of_find? h
  obtain ⟨blanks, blanks', rest, rfl, -, hb, hb', hliteral⟩ := exists_eq_of_startOf? hstart
  have hopens := opens_of_literalOf? hliteral
  refine ⟨hopens.ne_nil, ?_⟩
  cases hopens with
  | @bare after _ hword _ =>
    exact .inl ⟨hword, before, blanks, blanks', after, hb, hb', rfl⟩
  | @quoted opening closing after ho hc _ _ =>
    refine .inr ⟨opening, closing, ho, hc, before, blanks, blanks', after, hb, hb', ?_⟩
    simp only [List.cons_append, List.append_assoc, List.nil_append]

end Written

end Condition

end Criteria

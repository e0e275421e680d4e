import Criteria.Proofs.Condition.Text
import Criteria.Proofs.Number.Words

/-!
# Bare numerals in conditions

What is read of a number that stands bare in a condition is the word that it starts with. A
condition on another number comes out where the word ends at the point of a decimal and the digits
in front of the point make up a number of their own, and a condition on a text where the word ends
at the sign of an exponent.

* `read_spell_iff`: when a bare literal is read as a given number, or refused;
* `read_numeral_iff`: when a bare numeral is read as the number that it stands for, or refused.
-/

namespace Criteria.Condition

variable {field d : String} {x : Number}

/-- A bare literal is read as a number, or refused, if and only if the word that it starts with
    is nothing, or reads as that number or as an infinite one. -/
theorem read_spell_iff (hne : field.toList ≠ [])
    (hw : ∀ c ∈ field.toList, Text.isWordChar c) (op : Comparator)
    (hb : Text.Stops Text.isBlank d.toList) (hq : Text.Stops isQuote d.toList)
    (hc : ∀ c ∈ d.toList, Comparator.ofChar? c = none) :
    (read (spell field op d) = .ok ⟨field, op, .number x⟩ ∨
        read (spell field op d) = .error (.malformedCondition (spell field op d))) ↔
      Text.word d.toList = [] ∨
        ∃ y, Number.read? (String.ofList (Text.word d.toList)) = some y ∧
          (y = x ∨ ¬y.isFinite) := by
  rw [read_spell hne hw op hb hq hc]
  by_cases hword : Text.word d.toList = []
  · simp [hword]
  · rw [if_neg hword]
    cases hread : Number.read? (String.ofList (Text.word d.toList)) with
    | none => simp [Value.ofLiteral, hread, Value.isFinite, hword]
    | some y =>
      by_cases hy : y.isFinite
      · simp [Value.ofLiteral, hread, Value.isFinite, hword, hy]
      · simp [Value.ofLiteral, hread, Value.isFinite, hword, hy]

/-- No character of a numeral is a comparator. -/
theorem ofChar?_of_isNumeralChar {c : Char} (h : Number.IsNumeralChar c) :
    Comparator.ofChar? c = none := by
  rcases h with hword | hsign
  · exact Comparator.ofChar?_of_isWordChar hword
  · simp only [List.mem_cons, List.not_mem_nil, or_false] at hsign
    rcases hsign with rfl | rfl | rfl <;> rfl

/-- Blanks and quotes are looked for one character at a time. -/
theorem forall_bare {cs : List Char} :
    cs.all (fun c => !Text.isBlank c && !isQuote c) ↔ ∀ c ∈ cs, ¬Text.isBlank c ∧ ¬isQuote c := by
  simp

/-- A numeral that stands bare in a condition is read as the number that it stands for, or refused,
    if and only if it is a word as a whole, or starts with none, or has a point and the digits in
    front of that stand for the same number or for one that is too large. -/
theorem read_numeral_iff (hne : field.toList ≠ []) (hw : ∀ c ∈ field.toList, Text.isWordChar c)
    (op : Comparator) (hd : ∀ c ∈ d.toList, ¬Text.isBlank c ∧ ¬isQuote c)
    (hx : Number.read? d = some x) :
    (read (spell field op d) = .ok ⟨field, op, .number x⟩ ∨
        read (spell field op d) = .error (.malformedCondition (spell field op d))) ↔
      (∀ c ∈ d.toList, Text.isWordChar c) ∨ Text.word d.toList = [] ∨
        ∃ whole rest, d.toList = whole ++ '.' :: rest ∧ whole ≠ [] ∧ (∀ c ∈ whole, c.isDigit) ∧
          ∃ y, Number.read? (String.ofList whole) = some y ∧ (y = x ∨ ¬y.isFinite) := by
  have hstart : Text.Stops Text.isBlank d.toList := fun c hc => (hd c (List.mem_of_head? hc)).1
  have hend : Text.Stops Text.isBlank d.toList.reverse := fun c hc =>
    (hd c (List.mem_reverse.1 (List.mem_of_head? hc))).1
  have hnumeral := Number.numeral_of_read? hx
  rw [Text.trim_of_ends hstart hend] at hnumeral
  rw [read_spell_iff hne hw op hstart (fun c hc => (hd c (List.mem_of_head? hc)).2)
    fun c hc => ofChar?_of_isNumeralChar (hnumeral.isNumeralChar c hc)]
  -- The point is not of the word, and all digits in front of it are.
  have word_of_point {whole rest : List Char} (heq : d.toList = whole ++ '.' :: rest)
      (hwhole : ∀ c ∈ whole, c.isDigit) : Text.word d.toList = whole := by
    rw [heq, Number.word_eq_of_point hwhole]
  constructor
  · rintro (hnil | ⟨y, hy, hyx⟩)
    · exact .inr (.inl hnil)
    · cases hnumeral.firstWord with
      | none hnil => exact .inr (.inl hnil)
      | all hall => exact .inl hall
      | @point whole rest hne hwhole heq =>
        rw [word_of_point heq hwhole] at hy
        exact .inr (.inr ⟨whole, rest, heq, hne, hwhole, y, hy, hyx⟩)
      | unread hnone => simp [hnone] at hy
  · rintro (hall | hnil | ⟨whole, rest, heq, -, hwhole, hy⟩)
    · refine .inr ⟨x, ?_, .inl rfl⟩
      rwa [Text.word_eq_self hall, String.ofList_toList]
    · exact .inl hnil
    · exact .inr (by rwa [word_of_point heq hwhole])

/-- The digits in front of this point stand for the same number. -/
theorem read_numeral_iff_whole :
    "a".toList ≠ [] ∧ (∀ c ∈ "a".toList, Text.isWordChar c) ∧
      (∀ c ∈ "1.0".toList, ¬Text.isBlank c ∧ ¬isQuote c) ∧
      Number.read? "1.0" = some (Number.ofDecimal false 1 0) ∧
      (read (spell "a" .greater "1.0") = .ok ⟨"a", .greater, .number (Number.ofDecimal false 1 0)⟩ ∨
        read (spell "a" .greater "1.0") =
          .error (.malformedCondition (spell "a" .greater "1.0"))) := by
  have hne : "a".toList ≠ [] := by decide
  have hw : ∀ c ∈ "a".toList, Text.isWordChar c := List.all_eq_true.1 (by decide)
  have hd : ∀ c ∈ "1.0".toList, ¬Text.isBlank c ∧ ¬isQuote c := forall_bare.1 (by decide)
  have hx : Number.read? "1.0" = some (Number.ofDecimal false 1 0) := by decide +kernel
  have hone : Number.read? (String.ofList ['1']) = some (Number.ofDecimal false 1 0) := by
    decide +kernel
  refine ⟨hne, hw, hd, hx, (read_numeral_iff hne hw .greater hd hx).2 (.inr (.inr ?_))⟩
  exact ⟨['1'], ['0'], rfl, by decide, List.all_eq_true.1 (by decide), _, hone, .inl rfl⟩

/-- Not every finite number that stands bare is read as this number or refused: one and a half is
    read as one. -/
theorem not_forall_read_numeral :
    ¬∀ (field d : String) (op : Comparator) (x : Number),
      field.toList ≠ [] → (∀ c ∈ field.toList, Text.isWordChar c) →
      (∀ c ∈ d.toList, ¬Text.isBlank c ∧ ¬isQuote c) → Number.read? d = some x → x.isFinite →
        read (spell field op d) = .ok ⟨field, op, .number x⟩ ∨
          read (spell field op d) = .error (.malformedCondition (spell field op d)) := by
  intro h
  have hread : read (spell "a" .greater "1.5") =
      .ok ⟨"a", .greater, .number (Number.ofDecimal false 1 0)⟩ := by decide +kernel
  have hne : Number.ofDecimal false 1 0 ≠ Number.ofDecimal false 15 (-1) := by decide +kernel
  have hword : ∀ c ∈ "a".toList, Text.isWordChar c := List.all_eq_true.1 (by decide)
  have hbare : ∀ c ∈ "1.5".toList, ¬Text.isBlank c ∧ ¬isQuote c := forall_bare.1 (by decide)
  have := h "a" "1.5" .greater (.ofDecimal false 15 (-1)) (by decide) hword hbare
    (by decide +kernel) (by decide +kernel)
  rw [hread] at this
  rcases this with hok | herror
  · exact hne (Value.number.inj (congrArg Condition.value (Except.ok.inj hok)))
  · simp at herror

/-- The sign of an exponent ends the word, which is a text then. -/
example : read "a > 1e+5" = .ok ⟨"a", .greater, .text "1e"⟩ := by decide +kernel

end Criteria.Condition

import Criteria.Proofs.Condition.Written
import Criteria.Proofs.Number.Plain

/-!
# Texts of conditions read back

The text of a condition with a proper field name reads as the condition if and only if
its value is legible.

* `read_text_number`: what is read of a number;
* `read_text_of_legible`: a legible value is read back;
* `legible_of_read_text`: what is read back is legible;
* `solid_text`, `trim_text`: the text is one fragment of a rule string.
-/

namespace Criteria.Condition

/-- The text of a condition, from its field to its literal. -/
theorem toList_text (c : Condition) :
    c.text.toList =
      c.field.toList ++ ' ' :: c.comparator.char :: ' ' :: (literal c.value).toList :=
  toList_spell c.field c.comparator (literal c.value)

/-! ## Literals -/

/-- The literal of a text without quotes stands in single quotes. -/
theorem toList_literal_text {s : String} (h : ∀ c ∈ s.toList, ¬isQuote c) :
    (literal (.text s)).toList = '\'' :: (s.toList ++ ['\'']) := by
  have hquote : s.toList.contains '\'' = false := by
    rw [List.contains_eq_mem, decide_eq_false_iff_not]
    exact fun hmem => h _ hmem (by decide)
  have hsingle : "'".toList = ['\''] := rfl
  simp only [literal, hquote, Bool.false_eq_true, if_false, String.toList_append, hsingle,
    List.cons_append, List.nil_append]

theorem literalOf?_text {s : String} (hq : ∀ c ∈ s.toList, ¬isQuote c) (hne : s.toList ≠ []) :
    literalOf? (Text.trimStart (literal (.text s)).toList) = some s.toList := by
  have hopens : Opens s.toList ('\'' :: (s.toList ++ ['\''])) :=
    .quoted (by decide) (by decide) hne hq
  rw [toList_literal_text hq, Text.trimStart_of_stops hopens.stops, literalOf?_eq_some_iff]
  exact hopens

/-- In the text of a number there is no comparator. -/
theorem ofChar?_number (x : Number) : ∀ c ∈ x.text.toList, Comparator.ofChar? c = none := by
  refine Number.forall_text (fun c hc => ?_) (Number.forall_signs.2 (by decide)) x
  exact Comparator.ofChar?_of_isWordChar (Text.isWordChar_of_isDigit hc)

/-- Of a number, the word that its text starts with is read. -/
theorem read_text_number {field : String} (hf : IsFieldName field) (op : Comparator) (x : Number) :
    read (text ⟨field, op, .number x⟩) =
      if Text.word x.text.toList = [] then
        .error (.malformedCondition (text ⟨field, op, .number x⟩))
      else
        let value := Value.ofLiteral (String.ofList (Text.word x.text.toList))
        if value.isFinite then .ok ⟨field, op, value⟩
        else .error (.malformedCondition (text ⟨field, op, .number x⟩)) := by
  have hblank : ∀ c ∈ x.text.toList, ¬Text.isBlank c :=
    Number.forall_text (fun _ => Text.not_isBlank_of_isDigit)
      (Number.forall_signs.2 (by decide)) x
  have hquote : ∀ c ∈ x.text.toList, ¬isQuote c := by
    refine Number.forall_text (fun c hc => ?_) (Number.forall_signs.2 (by decide)) x
    exact not_isQuote_of_isWordChar (Text.isWordChar_of_isDigit hc)
  exact read_spell hf.ne_nil hf.isWordChar op (fun c hc => hblank c (List.mem_of_head? hc))
    (fun c hc => hquote c (List.mem_of_head? hc)) (ofChar?_number x)

/-! ## Reading back -/

theorem beq_iff {c d : Condition} :
    (d == c) = true ↔
      d.field = c.field ∧ d.comparator = c.comparator ∧ (d.value == c.value) = true := by
  change Condition.equal d c = true ↔ _
  simp [Condition.equal, and_assoc]

theorem ne_nil_of_read?_none {s : String} (h : Number.read? s = none) : s.toList ≠ [] := by
  intro hnil
  rw [Number.read?, hnil] at h
  exact absurd h (by decide)

/-- A condition with a legible value is read back. -/
theorem read_text_of_legible {c : Condition} (h : c.Legible) :
    ∃ d, read c.text = .ok d ∧ (d == c) = true := by
  obtain ⟨field, op, value⟩ := c
  obtain ⟨hf, hv⟩ := h
  cases value with
  | text s =>
    obtain ⟨hq, -, hnone⟩ := hv
    have hstart := startOf?_written (literal (.text s)).toList hf.ne_nil hf.isWordChar op
    rw [← toList_text ⟨field, op, .text s⟩,
      literalOf?_text hq (ne_nil_of_read?_none hnone)] at hstart
    refine ⟨⟨field, op, .text s⟩, ?_, ?_⟩
    · simp [read, find?_eq_of_startOf? hstart, Value.ofLiteral, hnone, Value.isFinite]
    · exact beq_iff.2 ⟨rfl, rfl, by change (s == s) = true; simp⟩
  | number x =>
    have hword : Text.word x.text.toList = x.text.toList :=
      Text.word_eq_self fun c hc => Text.isWordChar_of_isDigit (hv c hc)
    obtain ⟨y, hread, hfinite, hy⟩ := Number.read?_text_of_digits hv
    refine ⟨⟨field, op, .number y⟩, ?_, beq_iff.2 ⟨rfl, rfl, hy⟩⟩
    rw [read_text_number hf, hword, if_neg x.text_ne_nil]
    simp [Value.ofLiteral, hread, Value.isFinite, hfinite]

/-- If the text of a condition reads as the condition, it is legible: its number is
    written with digits alone. -/
theorem legible_of_read_text {c d : Condition} (hc : c.IsPlain) (h : read c.text = .ok d)
    (hd : (d == c) = true) : c.Legible := by
  obtain ⟨hf, hv⟩ := hc
  refine ⟨hf, ?_⟩
  obtain ⟨field, op, x | s⟩ := c
  case text => exact hv s rfl
  rw [read_text_number hf] at h
  split at h
  · -- Without a word there is no literal, and nothing is read at all.
    simp at h
  · rename_i hword
    simp only at h
    split at h
    · rename_i hfinite
      obtain rfl := Except.ok.inj h
      obtain ⟨-, -, hv⟩ := beq_iff.1 hd
      cases hread : Number.read? (String.ofList (Text.word x.text.toList)) with
      | none =>
        simp only [Value.ofLiteral, hread] at hv
        simp [BEq.beq, Value.equal] at hv
      | some y =>
        simp only [Value.ofLiteral, hread] at hfinite hv
        obtain ⟨negative, rank, rfl⟩ := Number.exists_eq_finite hfinite hv
        exact Number.isDigit_of_read?_word hword hread hv
    · simp at h

/-! ## One fragment -/

variable {c : Condition}

/-- The text of a condition is one fragment: no delimiter occurs in it. -/
theorem solid_text (h : c.IsPlain) : Token.Solid c.text.toList := by
  obtain ⟨hf, hv⟩ := h
  have hblank : ∀ d ∈ Token.delimiters, ' ' ∉ d := by decide
  have hquote : ∀ d ∈ Token.delimiters, '\'' ∉ d := by decide
  have hop : ∀ d ∈ Token.delimiters, c.comparator.char ∉ d := by
    cases c.comparator <;> decide
  have hnil : Token.Solid [] := by decide
  have hliteral : Token.Solid (literal c.value).toList := by
    obtain ⟨field, op, value⟩ := c
    cases value with
    | number x =>
      refine Token.solid_of_forall (Number.forall_text (fun c hc hmem => ?_)
        (Number.forall_signs.2 (by decide)) x)
      simp only [List.mem_cons, List.not_mem_nil, or_false] at hmem
      rcases hmem with rfl | rfl | rfl | rfl <;> exact absurd hc (by decide)
    | text s =>
      obtain ⟨hq, hs, -⟩ := hv s rfl
      rw [toList_literal_text hq]
      exact hnil.append_cons (hs.append_cons hnil hquote) hquote
  rw [toList_text]
  exact hf.solid.append_cons (hnil.append_cons (hnil.append_cons hliteral hblank) hop) hblank

/-- The text of a condition has no blanks at its ends. -/
theorem trim_text (h : c.IsPlain) : Text.trim c.text.toList = c.text.toList := by
  obtain ⟨hf, hv⟩ := h
  refine Text.trim_of_ends ?_ ?_
  · obtain ⟨first, rest, hfirst⟩ := List.exists_cons_of_ne_nil hf.ne_nil
    rw [toList_text, hfirst, List.cons_append, Text.stops_cons]
    exact Text.not_isBlank_of_isWordChar (hf.isWordChar first (by simp [hfirst]))
  · have hliteral : (literal c.value).toList ≠ [] ∧
        Text.Stops Text.isBlank (literal c.value).toList.reverse := by
      obtain ⟨field, op, value⟩ := c
      cases value with
      | number x =>
        refine ⟨x.text_ne_nil, fun c hc => ?_⟩
        exact Number.forall_text (fun _ => Text.not_isBlank_of_isDigit)
          (Number.forall_signs.2 (by decide)) x c (List.mem_reverse.1 (List.mem_of_head? hc))
      | text s =>
        rw [toList_literal_text (hv s rfl).1]
        refine ⟨by simp, ?_⟩
        rw [List.reverse_cons, List.reverse_append]
        exact Text.stops_cons.2 (by decide)
    have hreverse : c.text.toList.reverse = (literal c.value).toList.reverse ++
        (c.field.toList ++ [' ', c.comparator.char, ' ']).reverse := by
      rw [toList_text, ← List.reverse_append]
      simp
    rw [hreverse]
    exact hliteral.2.append (by simpa using hliteral.1)

end Criteria.Condition

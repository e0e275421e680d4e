import Criteria.Proofs.Number.Reading
import Criteria.Value

/-!
# Texts of numbers

The text of a number is a spelling of it, an infinity or the word of not-a-number. All but the
last are numerals, and they read as the number that was written; only the sign of a zero is lost,
which no comparison sees.

So what was read from a literal reads as the same value from its own text.

* `exists_text_eq`: the text of a finite number is a spelling of it;
* `forall_text`: the characters of these texts;
* `read?_text`: the text of a finite number reads back;
* `read?_display_and_ofLiteral_display`: all numbers and all literals.
-/

namespace Criteria.Number

/-! ## Spellings -/

/-- The text of a finite number is a spelling of it behind a sign. -/
theorem exists_text_eq (negative : Bool) (rank : Fin ranks) :
    ∃ s : Spelling, (Number.finite negative rank).text.toList =
        (if negative && rank.val ≠ 0 then ['-'] else []) ++ s.chars ∧
      ∀ negative', s.toNumber negative' = .finite negative' rank := by
  have ha : plain.afterWhole = Spelling.pointed (List.replicate 0 '0') := rfl
  obtain ⟨s, hs, -, -, hread⟩ := Layout.exists_write_eq ha negative rank
  refine ⟨s, ?_, hread⟩
  rw [text, String.toList_ofList, hs]
  simp [plain]

/-- What may stand in the text of a number besides digits. -/
def signs : List Char := ['.', 'e', '+', '-', 'N', 'a', 'I', 'n', 'f', 'i', 't', 'y']

theorem forall_signs {P : Char → Prop} : (∀ c ∈ signs, P c) ↔
    P '.' ∧ P 'e' ∧ P '+' ∧ P '-' ∧ P 'N' ∧ P 'a' ∧ P 'I' ∧ P 'n' ∧ P 'f' ∧ P 'i' ∧ P 't' ∧
      P 'y' := by
  simp [signs]

theorem forall_chars {P : Char → Prop} (hdigit : ∀ c, c.isDigit → P c) (hsign : ∀ c ∈ signs, P c)
    (s : Spelling) : ∀ c ∈ s.chars, P c := by
  have hpointed : ∀ c ∈ Spelling.pointed s.fraction, P c := by
    rw [Spelling.pointed]
    split
    · simp
    · rw [List.forall_mem_cons]
      exact ⟨hsign _ (by decide), fun c hc => hdigit c (s.isDigit_fraction c hc)⟩
  have hpowered : ∀ c ∈ Spelling.powered s.exponent, P c := by
    have hdigits := s.isDigit_exponent
    generalize s.exponent = e at hdigits ⊢
    rcases e with _ | ⟨negative, digits⟩
    · simp [Spelling.powered]
    · rw [Spelling.powered, List.forall_mem_cons, List.forall_mem_cons]
      refine ⟨hsign _ (by decide), ?_, fun c hc => hdigit c (hdigits (negative, digits) rfl c hc)⟩
      split <;> exact hsign _ (by decide)
  rw [Spelling.chars, List.append_assoc]
  exact List.forall_mem_append.2 ⟨fun c hc => hdigit c (s.isDigit_whole c hc),
    List.forall_mem_append.2 ⟨hpointed, hpowered⟩⟩

/-- What holds of the digits and signs holds of all characters of a number. -/
theorem forall_text {P : Char → Prop} (hdigit : ∀ c, c.isDigit → P c) (hsign : ∀ c ∈ signs, P c)
    (x : Number) : ∀ c ∈ x.text.toList, P c := by
  cases x with
  | nan =>
    have : ['N', 'a', 'N'] ⊆ signs := by decide
    exact fun c hc => hsign c (this hc)
  | infinite negative =>
    have : (Number.infinite negative).text.toList ⊆ signs := by cases negative <;> decide
    exact fun c hc => hsign c (this hc)
  | finite negative rank =>
    obtain ⟨s, hs, -⟩ := exists_text_eq negative rank
    rw [hs]
    refine List.forall_mem_append.2 ⟨?_, forall_chars hdigit hsign s⟩
    split
    · simpa using hsign '-' (by decide)
    · simp

theorem text_ne_nil (x : Number) : x.text.toList ≠ [] := by
  cases x with
  | nan => decide
  | infinite negative => cases negative <;> decide
  | finite negative rank =>
    obtain ⟨s, hs, -⟩ := exists_text_eq negative rank
    simp [hs, Spelling.chars, s.whole_ne_nil]

/-! ## Reading back -/

/-- There are no blanks around the text of a number. -/
theorem trim_text (x : Number) : Text.trim x.text.toList = x.text.toList := by
  have hblank : ∀ c ∈ x.text.toList, ¬Text.isBlank c :=
    forall_text (fun _ => Text.not_isBlank_of_isDigit) (forall_signs.2 (by decide)) x
  refine Text.trim_of_ends (fun c hc => hblank c (List.mem_of_head? hc)) (fun c hc => ?_)
  exact hblank c (List.mem_reverse.1 (List.mem_of_head? hc))

/-- The text of a finite number reads as this number. Only a zero loses its sign. -/
theorem read?_text (negative : Bool) (rank : Fin ranks) :
    read? (Number.finite negative rank).text =
      some (.finite (negative && rank.val ≠ 0) rank) := by
  obtain ⟨s, hs, hread⟩ := exists_text_eq negative rank
  rw [read?, trim_text, hs, ← hread]
  exact readTrimmed?_spelling s _

/-- The sign of a zero does not matter. -/
theorem beq_of_sign (negative : Bool) (rank : Fin ranks) :
    (Number.finite (negative && rank.val ≠ 0) rank == .finite negative rank) = true := by
  by_cases hr : rank.val = 0
  · change Number.equal _ _ = true
    cases negative <;> simp [Number.equal, place?, hr]
  · simpa [hr] using beq_self_of_finite negative rank

/-- The text of a number reads as an equal number, and that of not-a-number does not read. -/
theorem exists_read?_text_iff (x : Number) :
    (∃ y, read? x.text = some y ∧ (y == x) = true) ↔ x ≠ .nan := by
  constructor
  · rintro ⟨y, hread, -⟩ rfl
    have hnone : read? Number.nan.text = none := by decide
    rw [hnone] at hread
    simp at hread
  · intro hx
    cases x with
    | nan => exact absurd rfl hx
    | infinite negative => exact ⟨.infinite negative, by cases negative <;> decide⟩
    | finite negative rank => exact ⟨_, read?_text negative rank, beq_of_sign negative rank⟩

end Criteria.Number

namespace Criteria.Value

/-- The text of a number reads as a number that equals it, unless it is not a number. So a value
    that was read from a literal reads as an equal one from its own text, and it is never
    not-a-number. -/
theorem read?_display_and_ofLiteral_display :
    (∀ x : Number, (∃ y, Number.read? (number x).display = some y ∧ (y == x) = true) ↔
      x ≠ .nan) ∧
      ∀ raw : String, (ofLiteral (ofLiteral raw).display == ofLiteral raw) = true ∧
        ofLiteral raw ≠ number .nan := by
  refine ⟨Number.exists_read?_text_iff, fun raw => ?_⟩
  -- A literal that reads as no number is its own text.
  cases hraw : Number.read? raw with
  | none =>
    have hvalue : ofLiteral raw = text raw := by rw [ofLiteral, hraw]
    rw [hvalue, display, hvalue]
    exact ⟨beq_self_eq_true raw, by simp⟩
  | some x =>
    have hvalue : ofLiteral raw = number x := by rw [ofLiteral, hraw]
    have hx : x ≠ .nan := by
      rintro rfl
      exact Number.read?_ne_nan raw hraw
    obtain ⟨y, hread, hy⟩ := (Number.exists_read?_text_iff x).2 hx
    have hback : ofLiteral x.text = number y := by rw [ofLiteral, hread]
    rw [hvalue, display, hback]
    exact ⟨hy, by simpa using hx⟩

end Criteria.Value

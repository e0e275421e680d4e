import Criteria.Proofs.Condition.Standing
import Criteria.Proofs.Token.Fragment

/-!
# Written conditions

What is read as a condition stands in the fragment as it is written: its field is a
word, and its literal has no quotes.

* `of_read`: the fields and values of the conditions of a rule string;
* `startOf?_append`: reading a condition that is written with blanks as desired;
* `startOf?_written`, `find?_written_eq_none`: reading a condition that is written with a
  blank at either side of its comparator;
* `spell`, `read_spell`: reading one whose literal has no quotes.
-/

namespace Criteria

/-- The names that a field can have in a rule: words in which no connective stands. -/
structure IsFieldName (name : String) : Prop where
  ne_nil : name.toList ≠ []
  isWordChar : ∀ c ∈ name.toList, Text.isWordChar c
  solid : Token.Solid name.toList

instance (name : String) : Decidable (IsFieldName name) :=
  decidable_of_iff (name.toList ≠ [] ∧ name.toList.all Text.isWordChar ∧ Token.Solid name.toList)
    ⟨fun ⟨h₁, h₂, h₃⟩ => ⟨h₁, List.all_eq_true.1 h₂, h₃⟩,
      fun ⟨h₁, h₂, h₃⟩ => ⟨h₁, List.all_eq_true.2 h₂, h₃⟩⟩

/-- The values that are read back from the literals that they are written as: numbers
    that are written with digits alone, and texts without quotes, parentheses and
    connectives that do not read as numbers. -/
def Value.Legible : Value → Prop
  | .number x => ∀ c ∈ x.text.toList, c.isDigit
  | .text s => (∀ c ∈ s.toList, ¬Condition.isQuote c) ∧ Token.Solid s.toList ∧
      Number.read? s = none

instance : DecidablePred Value.Legible
  | .number x => decidable_of_iff (x.text.toList.all Char.isDigit) List.all_eq_true
  | .text s =>
    decidable_of_iff (s.toList.all (!Condition.isQuote ·) ∧ Token.Solid s.toList ∧
      Number.read? s = none) (by simp [Value.Legible])

namespace Condition

/-- A condition whose text is one token of a rule string: the name of its field is
    proper, and a text in it is legible, while a number may be any. -/
structure IsPlain (c : Condition) : Prop where
  field : IsFieldName c.field
  value : ∀ s, c.value = .text s → c.value.Legible

/-- A condition whose text reads back. -/
structure Legible (c : Condition) : Prop where
  field : IsFieldName c.field
  value : c.value.Legible

theorem Legible.isPlain {c : Condition} (h : c.Legible) : c.IsPlain := ⟨h.field, fun _ _ => h.value⟩

/-! ## What is found -/

/-- What is read of a solid fragment is plain and finite. -/
theorem of_read {fragment : String} {c : Condition} (hs : Token.Solid fragment.toList)
    (h : read fragment = .ok c) : c.IsPlain ∧ c.value.isFinite := by
  rw [read] at h
  split at h
  · simp at h
  · rename_i w hw
    obtain ⟨suffix, hsuffix, hw⟩ := exists_suffix_of_find? hw
    obtain ⟨⟨hne, hword, hfield⟩, hliteral, hquote⟩ := of_startOf? hw
    simp only at h
    split at h
    · rename_i hfinite
      obtain rfl := Except.ok.inj h
      refine ⟨⟨⟨?_, ?_, ?_⟩, ?_⟩, hfinite⟩
      · rwa [String.toList_ofList]
      · rwa [String.toList_ofList]
      · rw [String.toList_ofList]
        exact hs.of_infix (hfield.trans hsuffix.isInfix)
      · intro s hv
        simp only [Value.ofLiteral] at hv ⊢
        split at hv
        · simp at hv
        · rename_i hread
          refine ⟨?_, ?_, hread⟩
          · rwa [String.toList_ofList]
          · rw [String.toList_ofList]
            exact hs.of_infix (hliteral.trans hsuffix.isInfix)
    · simp at h

/-- What cannot be read is blamed as a whole. -/
theorem eq_of_read_error {fragment : String} {e : ReadError}
    (h : read fragment = .error e) : e = .malformedCondition fragment := by
  rw [read] at h
  split at h
  · exact (Except.error.inj h).symm
  · simp only at h
    split at h
    · simp at h
    · exact (Except.error.inj h).symm

/-! ## What is written -/

variable {field literal : List Char}

/-- A condition that starts with its field, with blanks in front of its comparator as desired,
    is read with the literal that follows, blanks apart. -/
theorem startOf?_append {blanks : List Char} (hne : field ≠ [])
    (hw : ∀ c ∈ field, Text.isWordChar c) (hb : ∀ c ∈ blanks, Text.isBlank c) (op : Comparator)
    (rest : List Char) :
    startOf? (field ++ (blanks ++ op.char :: rest)) =
      (literalOf? (Text.trimStart rest)).map (⟨field, op, ·⟩) := by
  have hstop : Text.Stops Text.isWordChar (blanks ++ op.char :: rest) := by
    cases blanks with
    | nil => exact Text.stops_cons.2 op.not_isWordChar_char
    | cons c blanks =>
      exact Text.stops_cons.2 fun hc =>
        Text.not_isBlank_of_isWordChar hc (hb c List.mem_cons_self)
  have hop : Text.trimStart (blanks ++ op.char :: rest) = op.char :: rest :=
    Text.dropWhile_run hb (Text.stops_cons.2 op.not_isBlank_char)
  simp only [startOf?, Text.word, Text.afterWord, Text.takeWhile_run hw hstop,
    Text.dropWhile_run hw hstop, if_neg hne, hop, Comparator.ofChar?_char]
  cases literalOf? (Text.trimStart rest) <;> rfl

theorem startOf?_written (literal : List Char) (hne : field ≠ [])
    (hw : ∀ c ∈ field, Text.isWordChar c) (op : Comparator) :
    startOf? (field ++ ' ' :: op.char :: ' ' :: literal) =
      (literalOf? (Text.trimStart literal)).map (⟨field, op, ·⟩) := by
  have hblank : ∀ c ∈ [' '], Text.isBlank c := List.forall_mem_singleton.2 (by decide)
  rw [← Text.trimStart_blank (c := ' ') (by decide) literal]
  exact startOf?_append hne hw hblank op (' ' :: literal)

/-- A condition may start with any part of a word before its field. -/
theorem startOf?_cons {c : Char} {cs : List Char} {w : Written} (hc : Text.isWordChar c)
    (h : startOf? cs = some w) : startOf? (c :: cs) = some { w with field := c :: w.field } := by
  obtain ⟨blanks, blanks', rest, rfl, ⟨hne, hw⟩, hb, -⟩ := exists_eq_of_startOf? h
  rw [startOf?_append hne hw hb] at h
  obtain ⟨literal, hliteral, hwritten⟩ := Option.map_eq_some_iff.1 h
  rw [← List.cons_append, startOf?_append (List.cons_ne_nil _ _) (List.forall_mem_cons.2 ⟨hc, hw⟩)
    hb, hliteral, ← congrArg Written.literal hwritten]
  rfl

/-- Without comparators there is no condition. -/
theorem find?_eq_none {cs : List Char} (h : ∀ c ∈ cs, Comparator.ofChar? c = none) :
    find? cs = none := by
  induction cs with
  | nil => rfl
  | cons c rest ih =>
    rw [find?, ih fun c hc => h c (List.mem_cons_of_mem _ hc)]
    suffices startOf? (c :: rest) = none by rw [this]
    rw [startOf?]
    split
    · rfl
    · split
      · rfl
      · rename_i d more heq
        have hd : d ∈ c :: rest := by
          have hsub : d :: more <:+ c :: rest := by
            rw [← heq]
            exact (List.dropWhile_suffix _).trans (List.dropWhile_suffix _)
          exact hsub.subset List.mem_cons_self
        rw [h d hd]

/-- No condition is found in what is written if there is no literal, and no other
    comparator behind. -/
theorem find?_written_eq_none (hw : ∀ c ∈ field, Text.isWordChar c) (op : Comparator)
    (hl : literalOf? (Text.trimStart literal) = none)
    (hc : ∀ c ∈ literal, Comparator.ofChar? c = none) :
    find? (field ++ ' ' :: op.char :: ' ' :: literal) = none := by
  induction field with
  | nil =>
    have hbehind : find? (' ' :: literal) = none :=
      find?_eq_none (List.forall_mem_cons.2 ⟨by decide, hc⟩)
    have hop : startOf? (op.char :: ' ' :: literal) = none := by
      rw [startOf?, if_pos (by cases op <;> rfl)]
    have hblank : startOf? (' ' :: op.char :: ' ' :: literal) = none := by
      rw [startOf?, if_pos (by rfl)]
    rw [List.nil_append, find?, hblank, find?, hop, hbehind]
  | cons c field ih =>
    have hstart := startOf?_written literal (List.cons_ne_nil c field) hw op
    rw [hl, Option.map_none, List.cons_append] at hstart
    rw [List.cons_append, find?, hstart]
    exact ih fun c hc => hw c (List.mem_cons_of_mem _ hc)

/-! ## Bare literals -/

/-- A condition in a rule, with its literal as it stands there. -/
def spell (field : String) (op : Comparator) (literal : String) : String :=
  field ++ " " ++ op.symbol ++ " " ++ literal

theorem toList_spell (field : String) (op : Comparator) (literal : String) :
    (spell field op literal).toList =
      field.toList ++ ' ' :: op.char :: ' ' :: literal.toList := by
  have hop : op.symbol.toList = [op.char] := by cases op <;> rfl
  have hblank : " ".toList = [' '] := rfl
  simp only [spell, String.toList_append, hop, hblank, List.append_assoc, List.cons_append,
    List.nil_append]

/-- A literal without quotes is read as far as it is a word. -/
theorem literalOf?_bare {cs : List Char} (hb : Text.Stops Text.isBlank cs)
    (hq : Text.Stops isQuote cs) :
    literalOf? (Text.trimStart cs) = if Text.word cs = [] then none else some (Text.word cs) := by
  rw [Text.trimStart_of_stops hb]
  cases cs with
  | nil => rfl
  | cons c rest => rw [literalOf?, if_neg (Text.stops_cons.1 hq)]

/-- With a bare literal, the condition on the word that it starts with is read, if there is one
    and its value is finite. -/
theorem read_spell {field d : String} (hne : field.toList ≠ [])
    (hw : ∀ c ∈ field.toList, Text.isWordChar c) (op : Comparator)
    (hb : Text.Stops Text.isBlank d.toList) (hq : Text.Stops isQuote d.toList)
    (hc : ∀ c ∈ d.toList, Comparator.ofChar? c = none) :
    read (spell field op d) =
      if Text.word d.toList = [] then .error (.malformedCondition (spell field op d))
      else
        let value := Value.ofLiteral (String.ofList (Text.word d.toList))
        if value.isFinite then .ok ⟨field, op, value⟩
        else .error (.malformedCondition (spell field op d)) := by
  have hliteral := literalOf?_bare hb hq
  split
  · rename_i hword
    have := find?_written_eq_none hw op (hliteral.trans (if_pos hword)) hc
    rw [← toList_spell] at this
    rw [read, this]
  · rename_i hword
    have := startOf?_written d.toList hne hw op
    rw [← toList_spell, hliteral, if_neg hword] at this
    simp [read, find?_eq_of_startOf? this]

end Condition

end Criteria

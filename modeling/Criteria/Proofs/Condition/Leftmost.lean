import Criteria.Proofs.Condition.Written
import Criteria.Proofs.Number.Reading

/-!
# The leftmost place of a condition

What is read of a fragment can be told from the places of the comparators in it. A comparator
makes a condition if a word ends before it and a literal starts behind it, blanks apart. The
first comparator that does so makes the condition that is read, with all of the word as its
field, although conditions are searched for from their first characters on.

* `Written.IsAt`: a condition is made by the comparator at a place;
* `find?_eq_some_iff`: what is found is made by the first comparator that makes any;
* `read_iff_leftmost`: what is read of a fragment, and when it is refused.
-/

namespace Criteria

/-! ## Words at the end of a text -/

namespace Text

variable {cs before : List Char}

/-- The longest word at the end of a text. -/
def lastWord (cs : List Char) : List Char := (word cs.reverse).reverse

theorem lastWord_append (hs : Stops isWordChar before.reverse) (hw : ∀ c ∈ cs, isWordChar c) :
    lastWord (before ++ cs) = cs := by
  have hw : ∀ c ∈ cs.reverse, isWordChar c := fun c hc => hw c (List.mem_reverse.1 hc)
  rw [lastWord, List.reverse_append, word_append hw hs, List.reverse_reverse]

/-- What stands before the longest word at the end of a text does not end with a character
    of a word. -/
theorem exists_lastWord (cs : List Char) :
    ∃ before, cs = before ++ lastWord cs ∧ Stops isWordChar before.reverse ∧
      ∀ c ∈ lastWord cs, isWordChar c := by
  refine ⟨(afterWord cs.reverse).reverse, ?_, ?_, fun c hc => ?_⟩
  · rw [lastWord, ← List.reverse_append, word, afterWord, List.takeWhile_append_dropWhile,
      List.reverse_reverse]
  · rw [List.reverse_reverse]
    exact stops_dropWhile isWordChar cs.reverse
  · exact List.mem_takeWhile_imp (List.mem_reverse.1 hc)

end Text

namespace Condition

variable {cs before blanks rest fragment literal : List Char} {w v : Written} {j k : Nat}

/-! ## Places of comparators -/

namespace Written

/-- The comparator at this place of a fragment makes the condition: before it, blanks apart,
    the fragment ends with the field, which is all of a word, and behind it, blanks apart, it
    starts with the literal. -/
structure IsAt (w : Written) (fragment : List Char) (k : Nat) : Prop where
  comparator : fragment[k]? = some w.comparator.char
  field : w.field = Text.lastWord (Text.trimEnd (fragment.take k))
  field_ne_nil : w.field ≠ []
  literal : Opens w.literal (Text.trimStart (fragment.drop (k + 1)))

/-- The condition is made by the first comparator that makes any. -/
structure IsLeftmost (w : Written) (fragment : List Char) (k : Nat) : Prop where
  isAt : w.IsAt fragment k
  first : ∀ j < k, ∀ v : Written, ¬v.IsAt fragment j

/-- A comparator makes one condition at most. -/
theorem IsAt.unique (h : w.IsAt fragment k) (hv : v.IsAt fragment k) : w = v := by
  obtain ⟨field, comparator, literal⟩ := w
  obtain ⟨field', comparator', literal'⟩ := v
  obtain rfl : field = field' := h.field.trans hv.field.symm
  have hchar : comparator.char = comparator'.char :=
    Option.some.inj (h.comparator.symm.trans hv.comparator)
  obtain rfl : comparator = comparator' := by
    have := Comparator.ofChar?_char comparator
    rw [hchar, Comparator.ofChar?_char] at this
    exact (Option.some.inj this).symm
  obtain rfl : literal = literal' :=
    Option.some.inj ((literalOf?_eq_some_iff.2 h.literal).symm.trans
      (literalOf?_eq_some_iff.2 hv.literal))
  rfl

/-- There is one first comparator at most. -/
theorem IsLeftmost.unique (h : w.IsLeftmost fragment k) (hv : v.IsLeftmost fragment j) :
    w = v := by
  rcases Nat.lt_trichotomy j k with hlt | rfl | hlt
  · exact absurd hv.isAt (h.first j hlt v)
  · exact h.isAt.unique hv.isAt
  · exact absurd h.isAt (hv.first k hlt w)

/-- A comparator makes the condition whose field stands before it and whose literal stands
    behind it. -/
theorem isAt_append (hs : Text.Stops Text.isWordChar before.reverse) (hne : w.field ≠ [])
    (hw : ∀ c ∈ w.field, Text.isWordChar c) (hb : ∀ c ∈ blanks, Text.isBlank c)
    (hl : Opens w.literal (Text.trimStart rest)) :
    w.IsAt (before ++ (w.field ++ (blanks ++ w.comparator.char :: rest)))
      (before ++ (w.field ++ blanks)).length := by
  have hfragment : before ++ (w.field ++ (blanks ++ w.comparator.char :: rest)) =
      before ++ (w.field ++ blanks) ++ w.comparator.char :: rest := by
    simp only [List.append_assoc]
  have hend : Text.Stops Text.isBlank (before ++ w.field).reverse := by
    obtain ⟨init, last, hfield⟩ := List.eq_nil_or_concat w.field |>.resolve_left hne
    rw [hfield, List.concat_eq_append, ← List.append_assoc, List.reverse_concat]
    exact Text.stops_cons.2 (Text.not_isBlank_of_isWordChar (hw last (by simp [hfield])))
  rw [hfragment]
  refine ⟨?_, ?_, hne, ?_⟩
  · rw [List.getElem?_append_right (Nat.le_refl _), Nat.sub_self]
    rfl
  · rw [List.take_left, ← List.append_assoc, Text.trimEnd_append_blanks hend hb,
      Text.lastWord_append hs hw]
  · rwa [List.drop_append, Nat.add_sub_cancel_left, List.drop_eq_nil_of_le (Nat.le_succ _)]

/-- Where a comparator makes a condition, the condition starts at its field. -/
theorem IsAt.startOf? (h : w.IsAt fragment k) :
    ∃ before suffix, fragment = before ++ suffix ∧ before.length ≤ k ∧
      Condition.startOf? suffix = some w := by
  obtain ⟨hcomparator, hfield, hne, hliteral⟩ := h
  obtain ⟨hk, hchar⟩ := List.getElem?_eq_some_iff.1 hcomparator
  obtain ⟨blanks, hblanks, hb⟩ := Text.exists_blanks_behind (fragment.take k)
  obtain ⟨before, hbefore, -, hw⟩ := Text.exists_lastWord (Text.trimEnd (fragment.take k))
  rw [← hfield] at hbefore hw
  have hfragment : fragment =
      before ++ (w.field ++ (blanks ++ w.comparator.char :: fragment.drop (k + 1))) := by
    conv_lhs =>
      rw [← List.take_append_drop k fragment, hblanks, hbefore, List.drop_eq_getElem_cons hk, hchar]
    simp only [List.append_assoc]
  refine ⟨before, _, hfragment, ?_, ?_⟩
  · have hlength := congrArg List.length hblanks
    rw [hbefore, List.length_take_of_le hk.le, List.length_append, List.length_append] at hlength
    omega
  · rw [startOf?_append hne hw hb, literalOf?_eq_some_iff.2 hliteral]
    rfl

end Written

/-! ## What is found -/

/-- What is found is made by the first comparator that makes any condition. -/
theorem isLeftmost_of_find? (h : find? fragment = some w) : ∃ k, w.IsLeftmost fragment k := by
  obtain ⟨before, suffix, rfl, hstart, hfirst⟩ := exists_first_of_find? h
  -- A word that went on before the field would have been found with more of it.
  have hs : Text.Stops Text.isWordChar before.reverse := by
    intro c hc hword
    rw [List.head?_reverse] at hc
    obtain ⟨init, rfl⟩ := List.getLast?_eq_some_iff.1 hc
    have hnone := hfirst init (c :: suffix) (by simp) (by simp)
    rw [startOf?_cons hword hstart] at hnone
    exact Option.some_ne_none _ hnone
  obtain ⟨blanks, blanks', rest, rfl, ⟨hne, hw⟩, hb, hb', hliteral⟩ :=
    exists_eq_of_startOf? hstart
  have hopens := literalOf?_eq_some_iff.1 hliteral
  have hbehind : Text.trimStart (blanks' ++ rest) = rest := Text.dropWhile_run hb' hopens.stops
  refine ⟨_, Written.isAt_append hs hne hw hb (by rwa [hbehind]), fun j hj v hv => ?_⟩
  obtain ⟨before', suffix', heq, hle, hstart'⟩ := hv.startOf?
  -- No condition starts before the field, and in front of its comparator there is no other.
  rcases Nat.lt_or_ge before'.length before.length with hlt | hge
  · rw [hfirst before' suffix' heq hlt] at hstart'
    exact Option.some_ne_none _ hstart'.symm
  · have hchar := hv.comparator
    rw [← List.append_assoc w.field, ← List.append_assoc before, List.getElem?_append_left hj,
      List.getElem?_append_right (hge.trans hle)] at hchar
    rcases List.mem_append.1 (List.mem_of_getElem? hchar) with hfield | hblank
    · exact v.comparator.not_isWordChar_char (hw _ hfield)
    · exact v.comparator.not_isBlank_char (hb _ hblank)

/-- Where a comparator makes a condition, one is found. -/
theorem exists_find?_of_isAt (h : w.IsAt fragment k) : ∃ v, find? fragment = some v := by
  obtain ⟨before, suffix, rfl, -, hstart⟩ := h.startOf?
  exact exists_find?_of_startOf? before hstart

/-- What is found is the condition that the first comparator makes. -/
theorem find?_eq_some_iff : find? fragment = some w ↔ ∃ k, w.IsLeftmost fragment k := by
  refine ⟨isLeftmost_of_find?, fun ⟨k, hk⟩ => ?_⟩
  obtain ⟨v, hv⟩ := exists_find?_of_isAt hk.isAt
  obtain ⟨j, hj⟩ := isLeftmost_of_find? hv
  rw [hv, hk.unique hj]

/-- Nothing is found just if no comparator makes a condition. -/
theorem find?_eq_none_iff :
    find? fragment = none ↔ ∀ (k : Nat) (w : Written), ¬w.IsAt fragment k := by
  constructor
  · intro hnone k w hw
    obtain ⟨v, hv⟩ := exists_find?_of_isAt hw
    rw [hnone] at hv
    exact Option.some_ne_none _ hv.symm
  · intro hnone
    cases hfind : find? fragment with
    | none => rfl
    | some w =>
      obtain ⟨k, hk⟩ := isLeftmost_of_find? hfind
      exact absurd hk.isAt (hnone k w)

/-! ## What is read -/

/-- The literal reads as an infinite number. -/
def Written.IsInfinite (w : Written) : Prop :=
  ∃ negative, Number.read? (String.ofList w.literal) = some (.infinite negative)

/-- The condition with its literal valued. -/
def Written.toCondition (w : Written) : Condition :=
  ⟨String.ofList w.field, w.comparator, Value.ofLiteral (String.ofList w.literal)⟩

theorem isFinite_toCondition : w.toCondition.value.isFinite ↔ ¬w.IsInfinite := by
  rw [Written.IsInfinite, Written.toCondition, Value.ofLiteral]
  cases hread : Number.read? (String.ofList w.literal) with
  | none => simp [Value.isFinite]
  | some x =>
    cases x with
    | nan => exact absurd hread (Number.read?_ne_nan _)
    | infinite negative => simp [Value.isFinite, Number.isFinite]
    | finite negative rank => simp [Value.isFinite, Number.isFinite]

theorem read_of_find? {fragment : String} (h : find? fragment.toList = some w) :
    read fragment =
      if w.toCondition.value.isFinite then .ok w.toCondition
      else .error (.malformedCondition fragment) := by
  rw [read, h]
  rfl

theorem read_eq_ok_iff {fragment : String} {c : Condition} :
    read fragment = .ok c ↔
      ∃ w, find? fragment.toList = some w ∧ ¬w.IsInfinite ∧ c = w.toCondition := by
  constructor
  · intro h
    cases hfind : find? fragment.toList with
    | none => simp [read, hfind] at h
    | some w =>
      rw [read_of_find? hfind] at h
      split at h
      · rename_i hfinite
        exact ⟨w, rfl, isFinite_toCondition.1 hfinite, (Except.ok.inj h).symm⟩
      · simp at h
  · rintro ⟨w, hfind, hfinite, rfl⟩
    rw [read_of_find? hfind, if_pos (isFinite_toCondition.2 hfinite)]

theorem read_eq_error_iff {fragment : String} {e : ReadError} :
    read fragment = .error e ↔ e = .malformedCondition fragment ∧
      (find? fragment.toList = none ∨
        ∃ w, find? fragment.toList = some w ∧ w.IsInfinite) := by
  constructor
  · intro h
    refine ⟨eq_of_read_error h, ?_⟩
    cases hfind : find? fragment.toList with
    | none => exact .inl rfl
    | some w =>
      refine .inr ⟨w, rfl, ?_⟩
      by_contra hfinite
      rw [read_eq_ok_iff.2 ⟨w, hfind, hfinite, rfl⟩] at h
      simp at h
  · rintro ⟨rfl, hnone | ⟨w, hfind, hinfinite⟩⟩
    · rw [read, hnone]
    · rw [read_of_find? hfind, if_neg fun hfinite => isFinite_toCondition.1 hfinite hinfinite]

/-- A fragment is refused as a whole just if no comparator makes a condition in it, or if the
    first one that does makes a condition with an infinite number. Of any other fragment, the
    condition that this comparator makes is read. -/
theorem read_iff_leftmost (fragment : String) :
    (∀ e, read fragment = .error e ↔ e = .malformedCondition fragment ∧
      ((∀ (k : Nat) (w : Written), ¬w.IsAt fragment.toList k) ∨
        ∃ w : Written, (∃ k, w.IsLeftmost fragment.toList k) ∧ w.IsInfinite)) ∧
    ∀ c, read fragment = .ok c ↔
      ∃ w : Written, (∃ k, w.IsLeftmost fragment.toList k) ∧ ¬w.IsInfinite ∧
        c = w.toCondition := by
  simp only [← find?_eq_none_iff, ← find?_eq_some_iff]
  exact ⟨fun _ => read_eq_error_iff, fun _ => read_eq_ok_iff⟩

/-- Of these comparators, the first has no word before it and the second no literal behind it,
    since there is nothing between the quotes. -/
example : read "= 5 a = '' b_1 <'>30'" = .ok ⟨"b_1", .less, .text ">30"⟩ := by decide +kernel

end Condition

end Criteria

import Criteria.Proofs.Condition.Written
import Criteria.Proofs.Rule.Limits
import Criteria.Rule.Precheck

/-!
# The pre-check and reading

The pre-check looks at the characters of a rule string, reading at its tokens. They agree on
parentheses, wherever these stand. A rule string that reads passes the pre-check, unless the
literals of all its conditions stand in quotes behind which no word starts.

* `Token.matched_splitAfter`: parentheses match in tokens just if they are balanced in
  characters;
* `Postfix.matched_eq_false_of_arrange`: what goes wrong with parentheses in arranging;
* `Precheck.comparesSomewhere_of_find?`: a condition passes if its literal starts as a word;
* `Precheck.agrees_with_read`: where the pre-check and reading agree.
-/

namespace Criteria

/-! ## Parentheses -/

/-- Other characters than parentheses do not count. -/
theorem Precheck.balancedAfter_cons {c : Char} (hopening : c ≠ '(') (hclosing : c ≠ ')')
    (opened : Nat) (rest : List Char) :
    balancedAfter opened (c :: rest) = balancedAfter opened rest := by
  rw [balancedAfter]
  · exact hopening
  · exact hclosing

namespace Token

theorem matched_withFragment (opened : Nat) (fragment : List Char) (tokens : List Token) :
    matched opened (withFragment fragment tokens) = matched opened tokens := by
  rw [withFragment]
  split
  · rfl
  · cases opened <;> rfl

/-- Parentheses match in the tokens of a text just if they are balanced in its characters. -/
theorem matched_splitAfter (opened : Nat) (fragment cs : List Char) :
    matched opened (splitAfter fragment cs) = Precheck.balancedAfter opened cs := by
  fun_induction splitAfter fragment cs generalizing opened with
  | case1 fragment =>
    rw [matched_withFragment]
    rfl
  | case2 fragment rest ih =>
    rw [matched_withFragment, matched, ih, Precheck.balancedAfter]
  | case3 fragment rest ih =>
    rw [matched_withFragment]
    cases opened with
    | zero => rfl
    | succ opened => exact ih opened
  | case4 fragment rest ih | case5 fragment rest ih =>
    rw [matched_withFragment]
    exact ih opened
  | case6 fragment c rest hopening hclosing _ _ ih =>
    rw [ih, Precheck.balancedAfter_cons hopening hclosing]

theorem matched_split (s : String) : matched 0 (split s) = Precheck.balanced s.toList :=
  matched_splitAfter 0 [] s.toList

end Token

/-- Whether an error blames a parenthesis that matches no other. -/
def ReadError.BlamesParenthesis : ReadError → Prop
  | .unmatchedClosing _ => True
  | .unclosedOpening => True
  | _ => False

namespace Postfix

variable {limits : Limits} {position nesting : Nat} {stack : List Waiting} {tokens : List Token}
  {e : ReadError}

/-- Where arranging blames a parenthesis, the tokens do not match what is open. -/
theorem matched_eq_false_of_arrange
    (h : arrange limits position nesting stack tokens = .error e) (he : e.BlamesParenthesis) :
    Token.matched (opened stack) tokens = false := by
  fun_induction arrange limits position nesting stack tokens with
  | case1 position nesting stack =>
    exact beq_false_of_ne (opened_pos_of_drain h).ne'
  | case2 position nesting stack op tokens released stack' hrelease ih =>
    have hopened := opened_release op stack
    rw [hrelease] at hopened
    rw [← hopened]
    exact ih (map_eq_error h)
  | case3 =>
    obtain rfl := Except.error.inj h
    exact he.elim
  | case4 position nesting stack tokens _ ih => exact ih h
  | case5 position nesting stack tokens hclose =>
    rw [opened_eq_zero_of_close? hclose]
    rfl
  | case6 position nesting stack tokens released stack' hclose ih =>
    obtain ⟨ops, rfl, -⟩ := exists_of_close? hclose
    rw [opened_waiting]
    exact ih (map_eq_error h)
  | case7 position nesting stack text tokens e' hread =>
    obtain rfl := Except.error.inj h
    rw [Condition.eq_of_read_error hread] at he
    exact he.elim
  | case8 position nesting stack text tokens c _ ih => exact ih (map_eq_error h)

/-- Building a tree does not look at parentheses. -/
theorem not_blamesParenthesis_of_build {built : List (Tree × Nat)} {items : List Item}
    (h : build limits built items = .error e) : ¬e.BlamesParenthesis := by
  fun_induction build limits built items with
  | case1 => simp at h
  | case2 | case4 | case6 =>
    obtain rfl := Except.error.inj h
    exact id
  | case3 _ _ _ ih | case5 _ _ _ _ _ _ _ _ _ ih => exact ih h

end Postfix

/-! ## Comparisons -/

namespace Precheck

variable {cs suffix rest : List Char} {c : Char}

/-- A comparison that starts somewhere in a text counts. -/
theorem comparesSomewhere_of_suffix (h : suffix <:+ cs) (hs : startsComparison suffix) :
    comparesSomewhere cs := by
  induction cs with
  | nil =>
    rw [List.suffix_nil.1 h] at hs
    exact absurd hs (by decide)
  | cons c cs ih =>
    rw [comparesSomewhere, Bool.or_eq_true]
    rcases List.suffix_cons_iff.1 h with rfl | h
    · exact .inl hs
    · exact .inr (ih h)

theorem isFoldedWordChar_of_isWordChar (h : Text.isWordChar c) : Text.isFoldedWordChar c := by
  rw [Text.isFoldedWordChar, h]
  rfl

theorem afterOperator?_char (comparator : Comparator) (rest : List Char) :
    afterOperator? (comparator.char :: rest) = some rest := by
  cases comparator <;> rfl

/-- The last character of a field, a comparator and an operand are a comparison. -/
theorem startsComparison_written (hc : Text.isWordChar c) {blanks blanks' : List Char}
    (hb : ∀ b ∈ blanks, Text.isBlank b) (hb' : ∀ b ∈ blanks', Text.isBlank b)
    (comparator : Comparator) (hr : Text.Stops Text.isBlank rest) (ho : startsOperand rest) :
    startsComparison (c :: (blanks ++ comparator.char :: (blanks' ++ rest))) := by
  have hstop : Text.Stops Text.isBlank (comparator.char :: (blanks' ++ rest)) :=
    Text.stops_cons.2 comparator.not_isBlank_char
  have hfirst : Text.trimStart (blanks ++ comparator.char :: (blanks' ++ rest)) =
      comparator.char :: (blanks' ++ rest) := Text.dropWhile_run hb hstop
  have hsecond : Text.trimStart (blanks' ++ rest) = rest := Text.dropWhile_run hb' hr
  simp only [startsComparison, hfirst, afterOperator?_char, hsecond, ho, Bool.and_true]
  exact isFoldedWordChar_of_isWordChar hc

/-- A literal that starts as a word is an operand, whatever follows it. -/
theorem startsOperand_of_literalOf? {literal : List Char} {first : Char}
    (h : Condition.literalOf? cs = some literal) (hfirst : first ∈ literal.head?)
    (hword : Text.isWordChar first) (behind : List Char) :
    Text.Stops Text.isBlank (cs ++ behind) ∧ startsOperand (cs ++ behind) := by
  obtain ⟨tail, rfl⟩ := List.head?_eq_some_iff.1 hfirst
  have hfolded := isFoldedWordChar_of_isWordChar hword
  cases Condition.opens_of_literalOf? h with
  | bare _ _ _ =>
    refine ⟨Text.stops_cons.2 (Text.not_isBlank_of_isWordChar hword), ?_⟩
    simp [startsOperand, hfolded]
  | @quoted opening _ _ hq _ _ _ =>
    refine ⟨Text.stops_cons.2 (Condition.not_isBlank_of_isQuote hq), ?_⟩
    have hq : (opening == '\'' || opening == '"') = true := hq
    simp only [List.cons_append, startsOperand, hq, hfolded, Bool.and_true, Bool.or_true]

/-- A condition whose literal starts as a word is a comparison, wherever it stands. -/
theorem comparesSomewhere_of_find? {w : Condition.Written} {first : Char} {fragment : List Char}
    (h : Condition.find? fragment = some w) (hfirst : first ∈ w.literal.head?)
    (hword : Text.isWordChar first) (hin : fragment <:+: cs) : comparesSomewhere cs := by
  obtain ⟨suffix, hsuffix, hstart⟩ := Condition.exists_suffix_of_find? h
  obtain ⟨blanks, blanks', rest, rfl, ⟨hne, hfield⟩, hb, hb', hliteral⟩ :=
    Condition.exists_eq_of_startOf? hstart
  obtain ⟨before, behind, rfl⟩ := hin
  obtain ⟨hstop, hoperand⟩ := startsOperand_of_literalOf? hliteral hfirst hword behind
  -- The field may be longer than the one character that counts.
  have hlast := List.dropLast_concat_getLast hne
  have hcomparison := startsComparison_written (hfield _ (List.getLast_mem hne)) hb hb' w.comparator
    hstop hoperand
  refine comparesSomewhere_of_suffix ?_ hcomparison
  obtain ⟨before', rfl⟩ := hsuffix
  refine ⟨before ++ before' ++ w.field.dropLast, ?_⟩
  conv_rhs => rw [← hlast]
  simp only [List.append_assoc, List.cons_append, List.nil_append]

/-! ## What is read -/

variable {limits : Limits} {s text : String} {t : Tree} {w : Condition.Written}

/-- The parentheses of what is read are balanced. -/
theorem balanced_of_read (h : Tree.read limits s = .ok t) : balanced s.toList = true := by
  rw [← Token.matched_split]
  exact Postfix.matched_of_arrange (Tree.ofTokens_of_read h)

/-- Where reading blames a parenthesis, they are not balanced. -/
theorem balanced_eq_false_of_read {e : ReadError} (h : Tree.read limits s = .error e)
    (he : e.BlamesParenthesis) : balanced s.toList = false := by
  rw [← Token.matched_split]
  rw [Tree.read] at h
  split at h
  · rename_i e' harrange
    obtain rfl := Except.error.inj h
    exact Postfix.matched_eq_false_of_arrange harrange he
  · exact absurd he (Postfix.not_blamesParenthesis_of_build h)

/-- A condition is found in every condition token of what is read. -/
theorem exists_find?_of_read (h : Tree.read limits s = .ok t)
    (htext : .condition text ∈ Token.split s) : ∃ w, Condition.find? text.toList = some w := by
  obtain ⟨c, hc⟩ := Tree.exists_read_of_mem_split h htext
  rw [Condition.read] at hc
  split at hc
  · simp at hc
  · rename_i w hw
    exact ⟨w, hw⟩

/-- What is read passes if the literal of one of its conditions starts as a word. -/
theorem passes_of_read (h : Tree.read limits s = .ok t) (htext : .condition text ∈ Token.split s)
    (hw : Condition.find? text.toList = some w) (first : Char) (hfirst : first ∈ w.literal.head?)
    (hword : Text.isWordChar first) : passes s = true := by
  rw [passes, Bool.and_eq_true]
  exact ⟨comparesSomewhere_of_find? hw hfirst hword (Token.infix_of_mem_split htext),
    balanced_of_read h⟩

/-- The pre-check and reading agree on parentheses: where these are not balanced, reading
    fails, and where they are, it blames none of them. What is read and does not pass the
    pre-check has nothing but conditions with quoted literals that do not start as words. So
    what is read passes if it has a condition with a bare literal, or with a quoted one that
    starts as a word. -/
theorem agrees_with_read (limits : Limits) (s : String) :
    (balanced s.toList = false → ∃ e, Tree.read limits s = .error e) ∧
    (balanced s.toList = true → Tree.read limits s ≠ .error .unclosedOpening ∧
      ∀ position, Tree.read limits s ≠ .error (.unmatchedClosing position)) ∧
    ∀ t, Tree.read limits s = .ok t →
      (passes s = false → ∀ text, .condition text ∈ Token.split s →
        ∃ w, Condition.find? text.toList = some w ∧ w.IsQuoted text.toList ∧
          ∃ first ∈ w.literal.head?, ¬Text.isWordChar first) ∧
      (∀ text w, .condition text ∈ Token.split s → Condition.find? text.toList = some w →
        w.IsBare text.toList ∨ (∃ first ∈ w.literal.head?, Text.isWordChar first) →
          passes s = true) := by
  refine ⟨fun hb => ?_, fun hb => ⟨fun h => ?_, fun position h => ?_⟩, fun t h => ?_⟩
  · cases h : Tree.read limits s with
    | error e => exact ⟨e, rfl⟩
    | ok t => simp [balanced_of_read h] at hb
  · simp [balanced_eq_false_of_read h trivial] at hb
  · simp [balanced_eq_false_of_read h trivial] at hb
  · have hbare : ∀ text w, .condition text ∈ Token.split s →
        Condition.find? text.toList = some w →
          w.IsBare text.toList ∨ (∃ first ∈ w.literal.head?, Text.isWordChar first) →
            passes s = true := by
      rintro text w htext hw (⟨hword, -⟩ | ⟨first, hfirst, hword⟩)
      · obtain ⟨first, rest, hliteral⟩ :=
          List.exists_cons_of_ne_nil (Condition.Written.isBare_or_isQuoted hw).1
        exact passes_of_read h htext hw first (by simp [hliteral])
          (hword first (by simp [hliteral]))
      · exact passes_of_read h htext hw first hfirst hword
    refine ⟨fun hp text htext => ?_, hbare⟩
    obtain ⟨w, hw⟩ := exists_find?_of_read h htext
    have hfails := hbare text w htext hw
    rw [hp] at hfails
    obtain ⟨hne, hstands⟩ := Condition.Written.isBare_or_isQuoted hw
    obtain ⟨first, rest, hliteral⟩ := List.exists_cons_of_ne_nil hne
    refine ⟨w, hw, hstands.resolve_left fun hb => ?_, first, by simp [hliteral], fun hword => ?_⟩
    · exact Bool.false_ne_true (hfails (.inl hb))
    · exact Bool.false_ne_true (hfails (.inr ⟨first, by simp [hliteral], hword⟩))

theorem agrees_with_read_percent :
    let bare : Condition.Written := ⟨['b'], .greater, ['2']⟩
    let c : Tree := .leaf ⟨"a", .equal, .text "%1"⟩
    let d : Tree := .leaf ⟨"b", .greater, .number (.ofInt 2)⟩
    (balanced "(a = '%1'".toList = false ∧ ∃ e, Tree.read {} "(a = '%1'" = .error e) ∧
    (balanced "a = '(' AND )".toList = true ∧
      Tree.read {} "a = '(' AND )" ≠ .error .unclosedOpening) ∧
    (Tree.read {} "a = '%1'" = .ok c ∧ passes "a = '%1'" = false ∧
      ∃ w, Condition.find? "a = '%1'".toList = some w ∧ w.IsQuoted "a = '%1'".toList ∧
        ∃ first ∈ w.literal.head?, ¬Text.isWordChar first) ∧
    (Tree.read {} "a = '%1' AND b > 2" = .ok (.join .and c d) ∧
      Condition.find? "b > 2".toList = some bare ∧ passes "a = '%1' AND b > 2" = true) := by
  intro bare c d
  have hquoted : Tree.read {} "a = '%1'" = .ok c := by decide +kernel
  have hjoined : Tree.read {} "a = '%1' AND b > 2" = .ok (.join .and c d) := by decide +kernel
  have hfails : passes "a = '%1'" = false := by decide +kernel
  have hbare : Condition.find? "b > 2".toList = some bare := by decide +kernel
  have hopen : balanced "(a = '%1'".toList = false := by decide +kernel
  have hclosed : balanced "a = '(' AND )".toList = true := by decide +kernel
  refine ⟨⟨hopen, (agrees_with_read {} _).1 hopen⟩,
    ⟨hclosed, ((agrees_with_read {} _).2.1 hclosed).1⟩, ⟨hquoted, hfails, ?_⟩,
    ⟨hjoined, hbare, ?_⟩⟩
  · exact ((agrees_with_read {} _).2.2 c hquoted).1 hfails "a = '%1'" (by decide +kernel)
  · exact ((agrees_with_read {} _).2.2 _ hjoined).2 "b > 2" bare (by decide +kernel) hbare
      (.inr ⟨'2', rfl, by decide⟩)

end Precheck

end Criteria

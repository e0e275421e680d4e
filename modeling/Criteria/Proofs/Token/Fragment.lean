import Criteria.Proofs.Text.Run
import Criteria.Token
import Mathlib.Data.List.Infix

/-!
# Fragments

A rule string is divided at delimiters, wherever these start. A text is *solid* if
no delimiter occurs in it, so that it stays in one fragment.

* `splitAfter_append`: a solid text joins the fragment that it follows;
* `Ends`: what ends a fragment, which is a delimiter or the end of the rule string;
* `solid_of_mem_split`: the texts of conditions are solid.
-/

namespace Criteria.Token

/-- What divides a rule string: the parentheses and the names of the connectives. -/
def delimiters : List (List Char) := [['('], [')'], ['A', 'N', 'D'], ['O', 'R']]

/-- No delimiter occurs in the text. -/
def Solid (cs : List Char) : Prop := ∀ d ∈ delimiters, ¬d <:+: cs

instance (cs : List Char) : Decidable (Solid cs) := by unfold Solid; infer_instance

theorem Solid.of_infix {cs ds : List Char} (h : Solid cs) (hi : ds <:+: cs) : Solid ds :=
  fun d hd hdi => h d hd (hdi.trans hi)

theorem ne_nil_of_mem_delimiters {d : List Char} (h : d ∈ delimiters) : d ≠ [] := by
  rintro rfl
  exact absurd h (by decide)

/-- Two solid texts stay solid with a character between them that is in no delimiter. -/
theorem Solid.append_cons {cs ds : List Char} {c : Char} (hcs : Solid cs) (hds : Solid ds)
    (hc : ∀ d ∈ delimiters, c ∉ d) : Solid (cs ++ c :: ds) := by
  rintro d hd ⟨before, after, heq⟩
  rw [List.append_assoc] at heq
  rcases List.append_eq_append_iff.1 heq with ⟨more, rfl, hmore⟩ | ⟨more, rfl, hmore⟩
  · rcases List.append_eq_append_iff.1 hmore with ⟨_, rfl, -⟩ | ⟨_ | ⟨e, behind⟩, rfl, hbehind⟩
    · exact hcs d hd (by simp)
    · exact hcs _ hd (by simpa using List.infix_append_right)
    · obtain ⟨rfl, -⟩ := List.cons.inj hbehind
      exact hc _ hd (by simp)
  · cases more with
    | nil =>
      obtain ⟨first, tail, rfl⟩ := List.exists_cons_of_ne_nil (ne_nil_of_mem_delimiters hd)
      obtain ⟨rfl, -⟩ := List.cons.inj hmore
      exact hc _ hd List.mem_cons_self
    | cons e more =>
      obtain ⟨-, rfl⟩ := List.cons.inj hmore
      exact hds d hd (by simp)

/-- A text without the characters that delimiters start with is solid. -/
theorem solid_of_forall {cs : List Char} (h : ∀ c ∈ cs, c ∉ ['(', ')', 'A', 'O']) : Solid cs := by
  have hhead : ∀ d ∈ delimiters, d.any fun c => c ∈ ['(', ')', 'A', 'O'] := by decide
  intro d hd hi
  obtain ⟨c, hc, hstart⟩ := List.any_eq_true.1 (hhead d hd)
  exact h c (hi.subset hc) (by simpa using hstart)

/-! ## Where delimiters start -/

/-- No delimiter starts within `cs` where `rest` follows it. -/
def Undivided (cs rest : List Char) : Prop :=
  ∀ before after, cs = before ++ after → after ≠ [] → ∀ d ∈ delimiters, ¬d <+: after ++ rest

theorem Undivided.solid {cs rest : List Char} (h : Undivided cs rest) : Solid cs := by
  rintro d hd ⟨before, after, rfl⟩
  refine h before (d ++ after) (by simp) ?_ d hd ⟨after ++ rest, by simp⟩
  simp [ne_nil_of_mem_delimiters hd]

theorem undivided_nil (rest : List Char) : Undivided [] rest := by
  intro before after heq hne
  exact absurd (List.append_eq_nil_iff.1 heq.symm).2 hne

/-- A character that no delimiter starts with extends what is undivided. -/
theorem Undivided.push {cs rest : List Char} {c : Char} (h : Undivided cs (c :: rest))
    (hc : ∀ d ∈ delimiters, ¬d <+: c :: rest) : Undivided (cs ++ [c]) rest := by
  intro before after heq hne d hd hp
  rcases List.eq_nil_or_concat after with rfl | ⟨after, last, rfl⟩
  · exact hne rfl
  · rw [List.concat_eq_append, ← List.append_assoc] at heq
    obtain ⟨rfl, hlast⟩ := List.append_inj' heq rfl
    obtain rfl : c = last := by simpa using hlast
    rw [List.concat_eq_append, List.append_assoc, List.cons_append, List.nil_append] at hp
    by_cases ha : after = []
    · subst ha
      exact hc d hd hp
    · exact h before after rfl ha d hd hp

/-- The letters with which a delimiter may go on that has started before. -/
def continues (c : Char) : Bool := c == 'N' || c == 'D' || c == 'R'

/-- A delimiter that starts in a text ends in it where none can go on behind it. -/
theorem prefix_of_prefix_append {cs rest d : List Char} (hd : d ∈ delimiters) (hne : cs ≠ [])
    (hr : Text.Stops continues rest) (h : d <+: cs ++ rest) : d <+: cs := by
  have hcontinues : ∀ d ∈ delimiters, d.tail.all continues := by decide
  obtain ⟨tail, heq⟩ := h
  rcases List.append_eq_append_iff.1 heq with ⟨more, rfl, -⟩ | ⟨more, rfl, rfl⟩
  · exact List.prefix_append _ _
  · -- The delimiter goes on behind the text, with a letter that is not its first.
    obtain ⟨first, cs, rfl⟩ := List.exists_cons_of_ne_nil hne
    cases more with
    | nil => simp
    | cons c more =>
      exact absurd (List.all_eq_true.1 (hcontinues _ hd) c (by simp)) (hr c rfl)

/-- A solid text is undivided where no delimiter can go on behind it. -/
theorem Solid.undivided {cs rest : List Char} (h : Solid cs) (hr : Text.Stops continues rest) :
    Undivided cs rest := by
  rintro before after rfl hne d hd hp
  have hstart := prefix_of_prefix_append hd hne hr hp
  exact h d hd (hstart.isInfix.trans (List.suffix_append _ _).isInfix)

/-- A text starts with no delimiter if it starts with none of the four. -/
theorem not_prefix_of_forall {c : Char} {rest : List Char} (h₁ : c ≠ '(') (h₂ : c ≠ ')')
    (h₃ : ∀ tail, c = 'A' → rest = 'N' :: 'D' :: tail → False)
    (h₄ : ∀ tail, c = 'O' → rest = 'R' :: tail → False) :
    ∀ d ∈ delimiters, ¬d <+: c :: rest := by
  rintro d hd ⟨tail, hp⟩
  simp only [delimiters, List.mem_cons, List.not_mem_nil, or_false] at hd
  rcases hd with rfl | rfl | rfl | rfl
  · exact h₁ (List.cons.inj hp).1.symm
  · exact h₂ (List.cons.inj hp).1.symm
  · exact h₃ tail (List.cons.inj hp).1.symm (List.cons.inj hp).2.symm
  · exact h₄ tail (List.cons.inj hp).1.symm (List.cons.inj hp).2.symm

/-! ## Splitting -/

/-- A character with which no delimiter starts joins the fragment before it. -/
theorem splitAfter_cons {fragment rest : List Char} {c : Char}
    (h : ∀ d ∈ delimiters, ¬d <+: c :: rest) :
    splitAfter fragment (c :: rest) = splitAfter (c :: fragment) rest := by
  simp only [delimiters, List.mem_cons, List.not_mem_nil, or_false, forall_eq_or_imp,
    forall_eq] at h
  obtain ⟨h₁, h₂, h₃, h₄⟩ := h
  rw [splitAfter]
  · rintro rfl
    simp at h₁
  · rintro rfl
    simp at h₂
  · rintro tail rfl rfl
    simp at h₃
  · rintro tail rfl rfl
    simp at h₄

/-- A text within which no delimiter starts joins the fragment before it. -/
theorem splitAfter_append {fragment cs rest : List Char} (h : Undivided cs rest) :
    splitAfter fragment (cs ++ rest) = splitAfter (cs.reverse ++ fragment) rest := by
  induction cs generalizing fragment with
  | nil => rfl
  | cons c cs ih =>
    have hcs : Undivided cs rest := fun before after heq hne =>
      h (c :: before) after (by rw [heq, List.cons_append]) hne
    have hc : ∀ d ∈ delimiters, ¬d <+: c :: (cs ++ rest) := h [] (c :: cs) rfl (by simp)
    rw [List.cons_append, splitAfter_cons hc, ih hcs]
    simp

/-! ## Fragments that end -/

section Ends

variable {blanks fragment rest : List Char} {tokens : List Token} {token : Token}

theorem withFragment_blank {c : Char} (h : Text.isBlank c) (fragment : List Char)
    (tokens : List Token) : withFragment (c :: fragment) tokens = withFragment fragment tokens := by
  rw [withFragment, List.reverse_cons, Text.trim_concat_of_isBlank h, withFragment]

/-- Blanks behind a fragment do not count. -/
theorem withFragment_append_blanks (hb : ∀ c ∈ blanks, Text.isBlank c) (fragment : List Char)
    (tokens : List Token) :
    withFragment (blanks ++ fragment) tokens = withFragment fragment tokens := by
  induction blanks with
  | nil => rfl
  | cons c blanks ih =>
    obtain ⟨hc, hb⟩ := List.forall_mem_cons.1 hb
    rw [List.cons_append, withFragment_blank hc, ih hb]

theorem withFragment_of_isBlank (h : ∀ c ∈ fragment, Text.isBlank c) (tokens : List Token) :
    withFragment fragment tokens = tokens := by
  have := withFragment_append_blanks h [] tokens
  rwa [List.append_nil] at this

theorem withFragment_append (fragment : List Char) (tokens more : List Token) :
    withFragment fragment (tokens ++ more) = withFragment fragment tokens ++ more := by
  rw [withFragment, withFragment]
  split <;> rfl

/-- Blanks belong to the fragment before them. -/
theorem splitAfter_blanks (hb : ∀ c ∈ blanks, Text.isBlank c) (fragment rest : List Char) :
    splitAfter fragment (blanks ++ rest) = splitAfter (blanks.reverse ++ fragment) rest := by
  refine splitAfter_append fun before after heq hne d hd hp => ?_
  have hstart : ∀ d ∈ delimiters, d.all (!Text.isBlank ·) := by decide
  obtain ⟨c, after, rfl⟩ := List.exists_cons_of_ne_nil hne
  obtain ⟨first, tail, rfl⟩ := List.exists_cons_of_ne_nil (ne_nil_of_mem_delimiters hd)
  obtain rfl : first = c := (List.cons_prefix_cons.1 hp).1
  have hfirst := List.all_eq_true.1 (hstart _ hd) first List.mem_cons_self
  simp [hb first (by simp [heq])] at hfirst

/-- A token as it is written. -/
def spelling : Token → List Char
  | .opening => ['(']
  | .closing => [')']
  | .connective op => op.name.toList
  | .condition text => text.toList

/-- The tokens that are no conditions. -/
def IsDelimiter (token : Token) : Prop := ∀ text, token ≠ .condition text

/-- Behind a solid text, `rest` ends the fragment and is split into `tokens`. -/
structure Ends (rest : List Char) (tokens : List Token) : Prop where
  stops : Text.Stops continues rest
  splitAfter : ∀ fragment, splitAfter fragment rest = withFragment fragment tokens

theorem Ends.nil : Ends [] [] := ⟨Text.stops_nil, fun _ => rfl⟩

/-- A delimiter ends the fragment before it. -/
theorem Ends.delimiter (hd : token.IsDelimiter) (rest : List Char) :
    Ends (token.spelling ++ rest) (token :: Token.splitAfter [] rest) := by
  cases token with
  | condition text => exact absurd rfl (hd text)
  | opening | closing => exact ⟨Text.stops_cons.2 (by decide), fun _ => rfl⟩
  | connective op => cases op <;> exact ⟨Text.stops_cons.2 (by decide), fun _ => rfl⟩

theorem not_continues_of_isBlank {c : Char} (h : Text.isBlank c) : ¬continues c := by
  intro hc
  simp only [continues, Bool.or_eq_true, beq_iff_eq] at hc
  rcases hc with (rfl | rfl) | rfl <;> exact absurd h (by decide)

/-- Blanks in front of what ends a fragment do not count. -/
theorem Ends.blanks_append (hb : ∀ c ∈ blanks, Text.isBlank c) (h : Ends rest tokens) :
    Ends (blanks ++ rest) tokens := by
  refine ⟨?_, fun fragment => ?_⟩
  · cases blanks with
    | nil => exact h.stops
    | cons c blanks =>
      exact Text.stops_cons.2 (not_continues_of_isBlank (hb c List.mem_cons_self))
  · rw [splitAfter_blanks hb, h.splitAfter,
      withFragment_append_blanks fun c hc => hb c (List.mem_reverse.1 hc)]

theorem Ends.closing (rest : List Char) :
    Ends (')' :: rest) (.closing :: Token.splitAfter [] rest) :=
  Ends.delimiter (show IsDelimiter .closing from nofun) rest

theorem Ends.connective (op : Connective) (rest : List Char) :
    Ends (' ' :: (op.name.toList ++ ' ' :: rest)) (.connective op :: Token.splitAfter [' '] rest) :=
  Ends.blanks_append (show ∀ c ∈ [' '], Text.isBlank c from List.forall_mem_singleton.2 (by decide))
    (Ends.delimiter (show IsDelimiter (.connective op) from nofun) (' ' :: rest))

end Ends

/-! ## Conditions -/

/-- A condition comes from the fragment or from further on. -/
theorem mem_withFragment {fragment : List Char} {tokens : List Token} {text : String}
    (h : .condition text ∈ withFragment fragment tokens) :
    (text.toList ≠ [] ∧ text.toList = Text.trim fragment.reverse) ∨ .condition text ∈ tokens := by
  rw [withFragment] at h
  split at h
  · exact .inr h
  · rename_i hne
    rcases List.mem_cons.1 h with heq | h
    · rw [Token.condition.inj heq, String.toList_ofList]
      exact .inl ⟨hne, rfl⟩
    · exact .inr h

/-- The text of a condition stands in the fragment and what follows it. -/
theorem infix_of_mem_splitAfter {fragment cs : List Char} {text : String}
    (h : .condition text ∈ splitAfter fragment cs) : text.toList <:+: fragment.reverse ++ cs := by
  have of_fragment {fragment rest : List Char} (h : text.toList = Text.trim fragment.reverse) :
      text.toList <:+: fragment.reverse ++ rest :=
    h ▸ (Text.trim_infix _).trans (List.prefix_append _ _).isInfix
  have step (delimiter : List Char) {fragment rest : List Char} {token : Token}
      {tokens : List Token} (h : .condition text ∈ withFragment fragment (token :: tokens))
      (hne : .condition text ≠ token)
      (ih : .condition text ∈ tokens → text.toList <:+: [].reverse ++ rest) :
      text.toList <:+: fragment.reverse ++ (delimiter ++ rest) := by
    rcases mem_withFragment h with ⟨-, h⟩ | h
    · exact of_fragment h
    · have hrest := ih ((List.mem_cons.1 h).resolve_left hne)
      exact hrest.trans ((List.suffix_append _ _).trans (List.suffix_append _ _)).isInfix
  fun_induction splitAfter fragment cs with
  | case1 fragment =>
    rcases mem_withFragment h with ⟨-, h⟩ | h
    · exact of_fragment h
    · simp at h
  | case2 fragment rest ih => exact step ['('] h (by simp) ih
  | case3 fragment rest ih => exact step [')'] h (by simp) ih
  | case4 fragment rest ih => exact step ['A', 'N', 'D'] h (by simp) ih
  | case5 fragment rest ih => exact step ['O', 'R'] h (by simp) ih
  | case6 fragment c rest _ _ _ _ ih => simpa using ih h

/-- The texts of conditions stand in the rule string. -/
theorem infix_of_mem_split {s text : String} (h : .condition text ∈ split s) :
    text.toList <:+: s.toList :=
  infix_of_mem_splitAfter h

/-- The conditions behind an undivided fragment are solid, as is that of the fragment. -/
theorem solid_of_mem_splitAfter {fragment cs : List Char} {text : String}
    (hf : Undivided fragment.reverse cs) (h : .condition text ∈ splitAfter fragment cs) :
    Solid text.toList := by
  have of_fragment {fragment cs : List Char} (hf : Undivided fragment.reverse cs)
      (h : text.toList = Text.trim fragment.reverse) : Solid text.toList :=
    h ▸ hf.solid.of_infix (Text.trim_infix _)
  fun_induction splitAfter fragment cs with
  | case1 fragment =>
    rcases mem_withFragment h with ⟨-, h⟩ | h
    · exact of_fragment hf h
    · simp at h
  | case2 fragment rest ih | case3 fragment rest ih | case4 fragment rest ih
  | case5 fragment rest ih =>
    rcases mem_withFragment h with ⟨-, h⟩ | h
    · exact of_fragment hf h
    · exact ih (undivided_nil _) (by simpa using h)
  | case6 fragment c rest h₁ h₂ h₃ h₄ ih =>
    refine ih ?_ h
    rw [List.reverse_cons]
    exact hf.push (not_prefix_of_forall h₁ h₂ h₃ h₄)

/-- The texts of conditions are solid. -/
theorem solid_of_mem_split {s text : String} (h : .condition text ∈ split s) :
    Solid text.toList :=
  solid_of_mem_splitAfter (show Undivided [].reverse _ from undivided_nil _) h

end Criteria.Token

import Criteria.Proofs.Token.Fragment
import Mathlib.Data.List.Chain

/-!
# Splitting is the only way

A rule string is written with its tokens, in their order, and blanks between them. There are no
other tokens that it is written with, once the texts of conditions are proper: they have no
blanks at their ends, no delimiter occurs in them, and something is between any two of them.

* `Spells`: a text is written with tokens;
* `spells_splitAfter`: a text is written with the tokens that it is split into;
* `split_of_spells`: it is split into any tokens that it is written with;
* `split_eq_iff`: the tokens of a rule string are the only ones.
-/

namespace Criteria.Token

/-- The text is written with the tokens, in their order, with blanks before and behind each of
    them as desired. -/
inductive Spells : List Token → List Char → Prop
  | nil {blanks : List Char} : (∀ c ∈ blanks, Text.isBlank c) → Spells [] blanks
  | cons {blanks rest : List Char} {token : Token} {tokens : List Token} :
    (∀ c ∈ blanks, Text.isBlank c) → Spells tokens rest →
      Spells (token :: tokens) (blanks ++ (token.spelling ++ rest))

/-- What can be the text of a condition: something without blanks at its ends, in which no
    delimiter occurs. -/
structure IsProper (text : List Char) : Prop where
  ne_nil : text ≠ []
  start : Text.Stops Text.isBlank text
  stop : Text.Stops Text.isBlank text.reverse
  solid : Solid text

/-- Of two tokens that follow each other, one is no condition. -/
def Apart (first second : Token) : Prop := first.IsDelimiter ∨ second.IsDelimiter

variable {blanks fragment cs rest : List Char} {token : Token} {tokens : List Token}
  {text : String}

/-! ## What is split -/

theorem Spells.blanks_append (hb : ∀ c ∈ blanks, Text.isBlank c) (h : Spells tokens cs) :
    Spells tokens (blanks ++ cs) := by
  cases h with
  | nil hcs => exact .nil fun c hc => (List.mem_append.1 hc).elim (hb c) (hcs c)
  | cons hcs h =>
    rw [← List.append_assoc]
    exact .cons (fun c hc => (List.mem_append.1 hc).elim (hb c) (hcs c)) h

/-- A fragment is written with its condition, if it has one. -/
theorem Spells.withFragment (fragment : List Char) (h : Spells tokens cs) :
    Spells (withFragment fragment tokens) (fragment.reverse ++ cs) := by
  obtain ⟨blanks, blanks', heq, hblank, hblank'⟩ := Text.exists_trim_eq fragment.reverse
  have htext : fragment.reverse ++ cs =
      blanks ++ (Text.trim fragment.reverse ++ (blanks' ++ cs)) := by
    conv_lhs => rw [heq]
    rw [List.append_assoc, List.append_assoc]
  have hrest := h.blanks_append hblank'
  rw [Token.withFragment, htext]
  split
  · rename_i hnil
    rw [hnil]
    exact hrest.blanks_append hblank
  · have hcons (text : List Char) : Spells (.condition (String.ofList text) :: tokens)
        (blanks ++ ((String.ofList text).toList ++ (blanks' ++ cs))) := .cons hblank hrest
    simpa only [String.toList_ofList] using hcons (Text.trim fragment.reverse)

/-- A text is written with the tokens that it is split into. -/
theorem spells_splitAfter (fragment cs : List Char) :
    Spells (splitAfter fragment cs) (fragment.reverse ++ cs) := by
  have step (token : Token) {fragment rest : List Char}
      (ih : Spells (splitAfter [] rest) ([].reverse ++ rest)) :
      Spells (withFragment fragment (token :: splitAfter [] rest))
        (fragment.reverse ++ (token.spelling ++ rest)) := by
    have hnext : Spells (token :: splitAfter [] rest) ([] ++ (token.spelling ++ rest)) :=
      .cons (List.forall_mem_nil _) ih
    exact hnext.withFragment fragment
  fun_induction splitAfter fragment cs with
  | case1 fragment => exact (Spells.nil (List.forall_mem_nil _)).withFragment fragment
  | case2 fragment rest ih => exact step .opening ih
  | case3 fragment rest ih => exact step .closing ih
  | case4 fragment rest ih => exact step (.connective .and) ih
  | case5 fragment rest ih => exact step (.connective .or) ih
  | case6 fragment c rest _ _ _ _ ih => simpa using ih

/-- The condition of a fragment stands apart from what ended the fragment. -/
theorem isChain_withFragment (fragment : List Char) (hd : token.IsDelimiter)
    (h : tokens.IsChain Apart) : (withFragment fragment (token :: tokens)).IsChain Apart := by
  have hchain : (token :: tokens).IsChain Apart := List.isChain_cons.2 ⟨fun _ _ => .inl hd, h⟩
  rw [withFragment]
  split
  · exact hchain
  · refine List.isChain_cons.2 ⟨fun next hnext => ?_, hchain⟩
    obtain rfl : token = next := Option.some.inj hnext
    exact .inr hd

theorem isChain_splitAfter (fragment cs : List Char) :
    (splitAfter fragment cs).IsChain Apart := by
  fun_induction splitAfter fragment cs with
  | case1 fragment =>
    rw [withFragment]
    split
    · exact .nil
    · exact .singleton _
  | case2 fragment rest ih | case3 fragment rest ih | case4 fragment rest ih
  | case5 fragment rest ih => exact isChain_withFragment fragment (by simp [IsDelimiter]) ih
  | case6 fragment c rest _ _ _ _ ih => exact ih

/-- The text of a condition is what is left of a fragment without its blanks. -/
theorem exists_trim_of_mem_splitAfter (h : .condition text ∈ splitAfter fragment cs) :
    text.toList ≠ [] ∧ ∃ fragment', text.toList = Text.trim fragment' := by
  fun_induction splitAfter fragment cs with
  | case1 fragment =>
    rcases mem_withFragment h with ⟨hne, h⟩ | h
    · exact ⟨hne, _, h⟩
    · simp at h
  | case2 fragment rest ih | case3 fragment rest ih | case4 fragment rest ih
  | case5 fragment rest ih =>
    rcases mem_withFragment h with ⟨hne, h⟩ | h
    · exact ⟨hne, _, h⟩
    · exact ih (by simpa using h)
  | case6 fragment c rest _ _ _ _ ih => exact ih h

/-- The texts of conditions are proper. -/
theorem isProper_of_mem_split {s : String} (h : .condition text ∈ split s) :
    IsProper text.toList := by
  obtain ⟨hne, fragment, htrim⟩ := exists_trim_of_mem_splitAfter h
  refine ⟨hne, ?_, ?_, solid_of_mem_split h⟩
  · rw [htrim]
    exact Text.stops_trim fragment
  · rw [htrim]
    exact Text.stops_reverse_trimEnd _

/-! ## What is written -/

/-- A text is split into the tokens that it is written with. In the induction, a text whose
    first token is no condition ends whatever fragment it follows. -/
theorem split_of_spells (h : Spells tokens cs)
    (hproper : ∀ text, .condition text ∈ tokens → IsProper text.toList)
    (happart : tokens.IsChain Apart) :
    splitAfter [] cs = tokens ∧ ((∀ first ∈ tokens.head?, first.IsDelimiter) → Ends cs tokens) := by
  induction h with
  | @nil blanks hb =>
    have hends : Ends (blanks ++ []) [] := Ends.nil.blanks_append hb
    rw [List.append_nil] at hends
    exact ⟨hends.splitAfter [], fun _ => hends⟩
  | @cons blanks rest token tokens hb _ ih =>
    obtain ⟨hnext, hchain⟩ := List.isChain_cons.1 happart
    obtain ⟨hsplit, hends⟩ := ih (fun text ht => hproper text (List.mem_cons_of_mem _ ht)) hchain
    by_cases hd : token.IsDelimiter
    · have hcs : Ends (blanks ++ (token.spelling ++ rest)) (token :: tokens) := by
        rw [← hsplit]
        exact (Ends.delimiter hd rest).blanks_append hb
      exact ⟨hcs.splitAfter [], fun _ => hcs⟩
    · -- Behind a condition comes a delimiter or the end, so that its text is a whole fragment.
      refine ⟨?_, fun hfirst => absurd (hfirst token rfl) hd⟩
      have hrest : Ends rest tokens := hends fun next hhead => (hnext next hhead).resolve_left hd
      obtain ⟨text, rfl⟩ : ∃ text, token = .condition text := by
        simpa [IsDelimiter] using hd
      obtain ⟨hne, hstart, hstop, hsolid⟩ := hproper text List.mem_cons_self
      have htrim : Text.trim (text.toList.reverse ++ (blanks.reverse ++ [])).reverse =
          text.toList := by
        rw [List.append_nil, List.reverse_append, List.reverse_reverse, List.reverse_reverse,
          Text.trim_append_of_forall hb, Text.trim_of_ends hstart hstop]
      rw [splitAfter_blanks hb, spelling, splitAfter_append (hsolid.undivided hrest.stops),
        hrest.splitAfter, withFragment, htrim]
      split
      · exact absurd ‹_› hne
      · rw [String.ofList_toList]

/-- The tokens of a rule string are the only ones that it is written with, if the texts of
    conditions are to be proper and no two conditions to follow each other. -/
theorem split_eq_iff (s : String) (tokens : List Token) :
    split s = tokens ↔
      Spells tokens s.toList ∧ (∀ text, .condition text ∈ tokens → IsProper text.toList) ∧
        tokens.IsChain Apart := by
  constructor
  · rintro rfl
    exact ⟨spells_splitAfter [] s.toList, fun text => isProper_of_mem_split,
      isChain_splitAfter [] s.toList⟩
  · rintro ⟨hspells, hproper, hchain⟩
    exact (split_of_spells hspells hproper hchain).1

/-- A connective divides a word in which it occurs. -/
example : split "ORDERS > 5" = [.connective .or, .condition "DERS > 5"] := by decide +kernel

end Criteria.Token

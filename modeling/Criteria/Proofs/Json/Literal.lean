import Criteria.Json.Printer
import Criteria.Json.Raw
import Criteria.Proofs.Number.Spelling
import Criteria.Proofs.Text.Run

/-!
# JSON literals read back

The numbers and strings of a JSON text are read as the tokens that were written.

* `Spelling.numeral`, `takeNumber?_spelling`: a spelled number is one token;
* `exists_chars_eq`, `takeNumber?_chars`: so is the text of a finite number;
* `take?_quote`: a quoted string is one token.
-/

namespace Criteria

/-- The numeral that a spelling is read as behind a sign. -/
def Spelling.numeral (s : Spelling) (negative : Bool) : Json.Numeral :=
  .ofDigits negative s.whole s.fraction (s.exponent.map fun e => powerOf (some e))

namespace Json

open Token

/-! ## Numbers -/

/-- The characters with which a number may go on. -/
def isNumberChar (c : Char) : Bool := c.isDigit || c == '.' || c == 'e' || c == 'E'

theorem stops_isDigit {rest : List Char} (h : Text.Stops isNumberChar rest) :
    Text.Stops Char.isDigit rest := by
  intro c hc hd
  exact h c hc (by simp [isNumberChar, hd])

theorem takeDigits?_run {digits rest : List Char} (hne : digits ≠ [])
    (hd : ∀ c ∈ digits, c.isDigit) (hr : Text.Stops Char.isDigit rest) :
    takeDigits? (digits ++ rest) = some (digits, rest) := by
  simp only [takeDigits?, Text.takeWhile_run hd hr, Text.dropWhile_run hd hr, if_neg hne]

theorem takeWhole?_whole (s : Spelling) {rest : List Char} (hr : Text.Stops Char.isDigit rest) :
    takeWhole? (s.whole ++ rest) = some (s.whole, rest) := by
  have htake := takeDigits?_run s.whole_ne_nil s.isDigit_whole hr
  rw [takeWhole?]
  split
  · rename_i c more after heq
    rw [htake] at heq
    have hwhole : s.whole = '0' :: c :: more := (Prod.mk.inj (Option.some.inj heq)).1
    have := s.whole_eq_zero (by rw [hwhole]; rfl)
    rw [hwhole] at this
    simp at this
  · exact htake

theorem takeFraction?_pointed {fraction rest : List Char} (hd : ∀ c ∈ fraction, c.isDigit)
    (hr : Text.Stops Char.isDigit rest) (hp : Text.Stops (· == '.') rest) :
    takeFraction? (Spelling.pointed fraction ++ rest) = some (fraction, rest) := by
  rw [Spelling.pointed]
  split
  · subst fraction
    rw [List.nil_append]
    unfold takeFraction?
    split
    · exact absurd rfl (Text.stops_cons.1 hp)
    · rfl
  · exact takeDigits?_run ‹_› hd hr

theorem takeExponent?_powered {e : Option (Bool × List Char)} {rest : List Char}
    (hne : ∀ d ∈ e, d.2 ≠ []) (hd : ∀ d ∈ e, ∀ c ∈ d.2, c.isDigit)
    (hr : Text.Stops isNumberChar rest) :
    takeExponent? (Spelling.powered e ++ rest) =
      some (e.map fun e => Spelling.powerOf (some e), rest) := by
  cases e with
  | none =>
    cases rest with
    | nil => rfl
    | cons c rest =>
      have hc : ¬(c = 'e' ∨ c = 'E') := by
        rintro (rfl | rfl) <;> exact absurd (Text.stops_cons.1 hr) (by decide)
      simp only [Spelling.powered, List.nil_append, takeExponent?, if_neg hc]
      rfl
  | some d =>
    obtain ⟨negative, digits⟩ := d
    have htake := takeDigits?_run (hne (negative, digits) rfl) (hd (negative, digits) rfl)
      (stops_isDigit hr)
    cases negative <;>
      simp only [Spelling.powered, List.cons_append, takeExponent?, true_or, if_true, htake,
        Bool.false_eq_true, if_false] <;> rfl

/-- A spelling behind a sign is read as its numeral. -/
theorem takeNumber?_spelling (s : Spelling) (negative : Bool) {rest : List Char}
    (hr : Text.Stops isNumberChar rest) :
    takeNumber? ((if negative then ['-'] else []) ++ s.chars ++ rest) =
      some (s.numeral negative, rest) := by
  have hchars : s.chars ++ rest = s.whole ++ (Spelling.pointed s.fraction ++
      (Spelling.powered s.exponent ++ rest)) := by
    simp only [Spelling.chars, List.append_assoc]
  have hpower : Text.Stops Char.isDigit (Spelling.powered s.exponent ++ rest) ∧
      Text.Stops (· == '.') (Spelling.powered s.exponent ++ rest) := by
    cases s.exponent with
    | none =>
      refine ⟨stops_isDigit hr, fun c hc hp => hr c hc ?_⟩
      rw [show c = '.' by simpa using hp]
      decide
    | some e =>
      exact ⟨Text.stops_cons.2 (by decide), Text.stops_cons.2 (by decide)⟩
  have hpoint : Text.Stops Char.isDigit (Spelling.pointed s.fraction ++
      (Spelling.powered s.exponent ++ rest)) := by
    rw [Spelling.pointed]
    split
    · exact hpower.1
    · exact Text.stops_cons.2 (by decide)
  have hwhole := takeWhole?_whole s hpoint
  have hfraction := takeFraction?_pointed s.isDigit_fraction hpower.1 hpower.2
  have hexponent := takeExponent?_powered s.exponent_ne_nil s.isDigit_exponent hr
  cases negative with
  | true =>
    simp only [takeNumber?, if_true, List.cons_append, List.nil_append, hchars, hwhole, hfraction,
      hexponent, Option.bind_some, Option.map_some, Spelling.numeral]
  | false =>
    obtain ⟨first, whole, hw⟩ := List.exists_cons_of_ne_nil s.whole_ne_nil
    have hne : first ≠ '-' := Text.ne_of_isDigit (s.isDigit_whole first (by simp [hw])) (by decide)
    simp only [takeNumber?, if_neg (show ¬false = true by decide), List.nil_append]
    split
    · rename_i hcs
      rw [hchars, hw, List.cons_append] at hcs
      exact absurd (List.cons.inj hcs).1 hne
    · simp only [hchars, hwhole, hfraction, hexponent, Option.bind_some, Option.map_some,
        Spelling.numeral]

/-- The text of a finite number is a spelling of it behind a sign, with a fraction or an
    exponent and no more than sixteen digits before these. -/
theorem exists_chars_eq (negative : Bool) (rank : Fin Number.ranks) :
    ∃ s : Spelling, (Num.float (.finite negative rank)).chars =
        (if negative then ['-'] else []) ++ s.chars ∧
      ¬s.isWhole ∧ s.whole.length ≤ 16 ∧
      ∀ negative', s.toNumber negative' = .finite negative' rank := by
  have ha : layout.afterWhole = Spelling.pointed (List.replicate 1 '0') := rfl
  obtain ⟨s, hs, hw, hlength, hread⟩ := Layout.exists_write_eq ha negative rank
  refine ⟨s, ?_, hw Nat.one_pos, hlength, hread⟩
  rw [Num.chars, hs]
  simp [layout]

/-- The numeral that a number is read as from its text. -/
def Num.numeral (n : Num) : Numeral :=
  match takeNumber? n.chars with
  | some (numeral, _) => numeral
  | none => .ofDigits false [] [] none

theorem numeral_of_chars_eq {n : Num} {s : Spelling} {negative : Bool}
    (h : n.chars = (if negative then ['-'] else []) ++ s.chars) :
    n.numeral = s.numeral negative := by
  have halone := takeNumber?_spelling s negative (Text.stops_nil (p := isNumberChar))
  rw [List.append_nil] at halone
  rw [Num.numeral, h, halone]

/-- The text of a finite number is read as its numeral. -/
theorem takeNumber?_chars {x : Number} (hx : x.isFinite) {rest : List Char}
    (hr : Text.Stops isNumberChar rest) :
    takeNumber? ((Num.float x).chars ++ rest) = some ((Num.float x).numeral, rest) := by
  cases x with
  | nan => simp [Number.isFinite] at hx
  | infinite negative => simp [Number.isFinite] at hx
  | finite negative rank =>
    obtain ⟨s, hs, -⟩ := exists_chars_eq negative rank
    rw [numeral_of_chars_eq hs, hs, takeNumber?_spelling s negative hr]

/-! ## Strings -/

/-- Content without a half of a character. -/
def contentOf (chars : List Char) : Content := ⟨some chars, none⟩

theorem hexValue?_hexDigit : ∀ n < 16, hexValue? (hexDigit n) = some n := by decide

/-- An unit below the halves is a character. -/
theorem addUnit_contentOf (chars : List Char) {c : Char} (h : c.toNat < 0x20) :
    (contentOf chars).addUnit c.toNat = contentOf (c :: chars) := by
  have h₁ : ¬(0xD800 ≤ c.toNat ∧ c.toNat ≤ 0xDBFF) := by omega
  have h₂ : ¬(0xDC00 ≤ c.toNat ∧ c.toNat ≤ 0xDFFF) := by omega
  simp only [Content.addUnit, contentOf, if_neg h₁, if_neg h₂, Char.ofNat_toNat]
  rfl

/-- A character is escaped by a letter, by its number, or not at all. -/
theorem escape_cases (c : Char) :
    (∃ d, escape c = ['\\', d] ∧ unescape? d = some c ∧ d ≠ 'u') ∨
    (escape c = ['\\', 'u', '0', '0', hexDigit (c.toNat / 16), hexDigit (c.toNat % 16)] ∧
      c.toNat < 0x20) ∨
    (escape c = [c] ∧ c ≠ '"' ∧ c ≠ '\\' ∧ ¬c.toNat < 0x20) := by
  rw [escape]
  iterate 7
    split
    · subst c
      exact .inl ⟨_, rfl, rfl, by decide⟩
  split
  · rename_i h
    exact .inr (.inl ⟨rfl, h⟩)
  · rename_i h₁ h₂ _ _ _ _ _ h
    exact .inr (.inr ⟨rfl, h₁, h₂, h⟩)

/-- An escaped character is read as the character. -/
theorem takeString?_escape (chars : List Char) (c : Char) (rest : List Char) :
    takeString? (contentOf chars) (escape c ++ rest) =
      takeString? (contentOf (c :: chars)) rest := by
  rcases escape_cases c with ⟨d, hc, hd, hu⟩ | ⟨hc, h⟩ | ⟨hc, h₁, h₂, h⟩
  · rw [hc, List.cons_append, List.singleton_append, takeString?, hd]
    · rfl
    · rintro a b c d rest' rfl
      exact absurd rfl hu
  · have hvalue : hexValues? '0' '0' (hexDigit (c.toNat / 16)) (hexDigit (c.toNat % 16)) =
        some c.toNat := by
      rw [hexValues?, hexValue?_hexDigit _ (by omega), hexValue?_hexDigit _ (by omega)]
      simp only [show hexValue? '0' = some 0 from rfl, Option.some.injEq]
      omega
    simp only [hc, List.cons_append, List.nil_append, takeString?, hvalue,
      addUnit_contentOf chars h]
  · rw [hc, List.singleton_append, takeString?, if_neg h]
    · rfl
    · exact h₁
    · rintro a b c' d rest' rfl rfl
      exact absurd rfl h₂
    · rintro d rest' rfl rfl
      exact absurd rfl h₂

/-- An escaped string is read up to the quote that ends it. -/
theorem takeString?_flatMap (chars cs rest : List Char) :
    takeString? (contentOf chars) (cs.flatMap escape ++ '"' :: rest) =
      some (some (String.ofList (chars.reverse ++ cs)), rest) := by
  induction cs generalizing chars with
  | nil => simp [takeString?, contentOf, Content.toString?]
  | cons c cs ih =>
    rw [List.flatMap_cons, List.append_assoc, takeString?_escape, ih, List.reverse_cons,
      List.append_assoc, List.singleton_append]

/-- A quoted string is one token. -/
theorem take?_quote (s : String) (rest : List Char) :
    take? '"' (s.toList.flatMap escape ++ '"' :: rest) = some (.string (some s), rest) := by
  have := takeString?_flatMap [] s.toList rest
  rw [List.reverse_nil, List.nil_append, String.ofList_toList] at this
  change (takeString? (contentOf []) _).map _ = _
  rw [this]
  rfl

end Json

end Criteria

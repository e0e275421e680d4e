import Criteria.Number.Numeral
import Criteria.Proofs.Number.Nearest
import Criteria.Proofs.Number.Spelling
import Criteria.Proofs.Text.Run
import Mathlib.Data.List.Forall2
import Mathlib.Data.List.Nodup
import Mathlib.Data.Nat.Digits.Defs

/-!
# The grammar of numerals

A text reads as a number if and only if it is a numeral between blanks: nothing at all, an
infinity, a decimal or a whole number in another base. It reads as the number nearest to what the
numeral stands for.

Behind the letter of a base, the reader takes what it should not and refuses what it should take:
a plus sign may stand in front of the digits, and the number has to fit into 64 bits.

* `Numeral`: the grammar, which leaves open what may stand behind the letter of a base;
* `IsWhole`, `IsTaken`: the digits of a whole number, and what the reader takes instead;
* `readTrimmed?_eq_some_iff`: a text without blanks around it;
* `read?_iff_numeral`: any text, and which texts do not read as the digits say.
-/

namespace Criteria.Number

variable {cs : List Char} {x : Number}

/-! ## Numerals -/

/-- An optional sign, and whether it is a minus. -/
inductive SignPart : List Char → Bool → Prop
  | absent : SignPart [] false
  | plus : SignPart ['+'] false
  | minus : SignPart ['-'] true

/-- An optional exponent, and the power of ten that it stands for. -/
inductive ExponentPart : List Char → Int → Prop
  | absent : ExponentPart [] 0
  | present {letter : Char} {sign digits : List Char} {negative : Bool} :
    letter = 'e' ∨ letter = 'E' → SignPart sign negative → digits ≠ [] →
      (∀ c ∈ digits, c.isDigit) →
        ExponentPart (letter :: (sign ++ digits)) (Spelling.powerOf (some (negative, digits)))

/-- Digits with an optional point, of which one at least has to stand on either side of it, and
    an optional exponent. They stand for a coefficient and a power of ten. -/
inductive Unsigned : List Char → Nat → Int → Prop
  | whole {digits exponent : List Char} {e : Int} : digits ≠ [] → (∀ c ∈ digits, c.isDigit) →
    ExponentPart exponent e → Unsigned (digits ++ exponent) (Nat.ofDigitChars 10 digits 0) e
  | pointed {whole fraction exponent : List Char} {e : Int} : ¬(whole = [] ∧ fraction = []) →
    (∀ c ∈ whole, c.isDigit) → (∀ c ∈ fraction, c.isDigit) → ExponentPart exponent e →
      Unsigned (whole ++ '.' :: (fraction ++ exponent))
        (Nat.ofDigitChars 10 (whole ++ fraction) 0) (e - fraction.length)

/-- The letters that stand for other bases, with these. -/
def bases : List (Char × Nat) := [('x', 16), ('X', 16), ('o', 8), ('O', 8), ('b', 2), ('B', 2)]

/-- A numeral and the number that it stands for. What may stand behind the letter of a base for a
    whole number is left open. -/
inductive Numeral (Whole : Nat → List Char → Nat → Prop) : List Char → Number → Prop
  | blank : Numeral Whole [] (zero false)
  | infinity {sign : List Char} {negative : Bool} : SignPart sign negative →
    Numeral Whole (sign ++ "Infinity".toList) (.infinite negative)
  | decimal {sign rest : List Char} {negative : Bool} {c : Nat} {e : Int} {x : Number} :
    SignPart sign negative → Unsigned rest c e → IsNearest negative c e x →
      Numeral Whole (sign ++ rest) x
  | based {letter : Char} {base n : Nat} {digits : List Char} {x : Number} :
    (letter, base) ∈ bases → Whole base digits n → IsNearest false n 0 x →
      Numeral Whole ('0' :: letter :: digits) x

/-- One or more digits of a base, and the whole number that they make up. -/
def IsWhole (base : Nat) (digits : List Char) (n : Nat) : Prop :=
  digits ≠ [] ∧ ∃ values, List.Forall₂ (fun c v => digitValue? base c = some v) digits values ∧
    n = Nat.ofDigits base values.reverse

/-- What is taken for a whole number: its digits, also behind a plus sign, if it fits into
    64 bits. -/
def IsTaken (base : Nat) (cs : List Char) (n : Nat) : Prop :=
  (IsWhole base cs n ∨ ∃ digits, cs = '+' :: digits ∧ IsWhole base digits n) ∧ n < wholeLimit

/-! ## Signs and exponents -/

theorem exists_of_takeSign (cs : List Char) :
    ∃ sign, SignPart sign (takeSign cs).1 ∧ cs = sign ++ (takeSign cs).2 := by
  unfold takeSign
  split
  · exact ⟨_, .minus, rfl⟩
  · exact ⟨_, .plus, rfl⟩
  · exact ⟨_, .absent, rfl⟩

/-- A sign is taken off what does not start with another one. -/
theorem SignPart.takeSign {sign : List Char} {negative : Bool} (h : SignPart sign negative)
    (hc : ∀ c ∈ cs.head?, c ≠ '-' ∧ c ≠ '+') : takeSign (sign ++ cs) = (negative, cs) := by
  cases h with
  | plus | minus => rfl
  | absent =>
    cases cs with
    | nil => rfl
    | cons c cs =>
      obtain ⟨hminus, hplus⟩ := hc c rfl
      unfold Number.takeSign
      split <;> simp_all

theorem ne_sign_of_isDigit {c : Char} (h : c.isDigit) : c ≠ '-' ∧ c ≠ '+' :=
  ⟨Text.ne_of_isDigit h (by decide), Text.ne_of_isDigit h (by decide)⟩

/-- An exponent is read as the power of ten that it stands for, and nothing else is read. -/
theorem readExponent?_eq_some_iff {e : Int} : readExponent? cs = some e ↔ ExponentPart cs e := by
  constructor
  · intro h
    unfold readExponent? at h
    split at h
    · obtain rfl := Option.some.inj h
      exact .absent
    · rename_i letter rest
      split at h
      · rename_i hletter
        obtain ⟨sign, hsign, hrest⟩ := exists_of_takeSign rest
        simp only at h
        generalize takeSign rest = taken at h hsign hrest
        subst hrest
        split at h
        · rename_i hdigits
          obtain rfl := Option.some.inj h
          exact .present hletter hsign hdigits.1 (List.all_eq_true.1 hdigits.2)
        · simp at h
      · simp at h
  · intro h
    cases h with
    | absent => rfl
    | @present letter sign digits negative hletter hsign hne hdigits =>
      have htake : takeSign (sign ++ digits) = (negative, digits) := hsign.takeSign fun c hc =>
        ne_sign_of_isDigit (hdigits c (List.mem_of_head? hc))
      have hall : digits ≠ [] ∧ digits.all Char.isDigit := ⟨hne, List.all_eq_true.2 hdigits⟩
      simp only [readExponent?, if_pos hletter, htake, if_pos hall, Spelling.powerOf]

/-! ## Decimals -/

theorem ExponentPart.stops {e : Int} (h : ExponentPart cs e) :
    Text.Stops Char.isDigit cs ∧ Text.Stops (· == '.') cs := by
  cases h with
  | absent => exact ⟨Text.stops_nil, Text.stops_nil⟩
  | present hletter => rcases hletter with rfl | rfl <;> simp

theorem takeFraction_of_stops (h : Text.Stops (· == '.') cs) : takeFraction cs = ([], cs) := by
  unfold takeFraction
  split
  · simp at h
  · rfl

theorem forall_takeWhile_isDigit (cs : List Char) : ∀ c ∈ cs.takeWhile Char.isDigit, c.isDigit :=
  List.all_eq_true.1 List.all_takeWhile

/-- What may stand in a decimal numeral. -/
def IsDecimalChar (c : Char) : Prop := c.isDigit ∨ c ∈ ['.', 'e', 'E', '+', '-']

theorem SignPart.isDecimalChar {sign : List Char} {negative : Bool} (h : SignPart sign negative) :
    ∀ c ∈ sign, IsDecimalChar c := by
  cases h <;> simp [IsDecimalChar]

theorem ExponentPart.isDecimalChar {e : Int} (h : ExponentPart cs e) :
    ∀ c ∈ cs, IsDecimalChar c := by
  cases h with
  | absent => simp
  | present hletter hsign hne hdigits =>
    refine List.forall_mem_cons.2 ⟨.inr (by rcases hletter with rfl | rfl <;> decide), ?_⟩
    exact List.forall_mem_append.2 ⟨hsign.isDecimalChar, fun c hc => .inl (hdigits c hc)⟩

theorem Unsigned.isDecimalChar {c : Nat} {e : Int} (h : Unsigned cs c e) :
    ∀ c ∈ cs, IsDecimalChar c := by
  cases h with
  | whole hne hdigits hexponent =>
    exact List.forall_mem_append.2 ⟨fun c hc => .inl (hdigits c hc), hexponent.isDecimalChar⟩
  | pointed hne hwhole hfraction hexponent =>
    refine List.forall_mem_append.2 ⟨fun c hc => .inl (hwhole c hc), ?_⟩
    refine List.forall_mem_cons.2 ⟨.inr (by decide), List.forall_mem_append.2 ⟨?_, ?_⟩⟩
    · exact fun c hc => .inl (hfraction c hc)
    · exact hexponent.isDecimalChar

/-- An unsigned decimal starts with a digit or the point. -/
theorem Unsigned.exists_cons {c : Nat} {e : Int} (h : Unsigned cs c e) :
    ∃ first rest, cs = first :: rest ∧ (first.isDigit ∨ first = '.') := by
  cases h with
  | whole hne hdigits =>
    obtain ⟨first, rest, rfl⟩ := List.exists_cons_of_ne_nil hne
    exact ⟨first, _, rfl, .inl (hdigits first List.mem_cons_self)⟩
  | @pointed whole _ _ _ hne hwhole =>
    cases whole with
    | nil => exact ⟨'.', _, rfl, .inr rfl⟩
    | cons first rest => exact ⟨first, _, rfl, .inl (hwhole first List.mem_cons_self)⟩

theorem Unsigned.ne_sign {c : Nat} {e : Int} (h : Unsigned cs c e) :
    ∀ c ∈ cs.head?, c ≠ '-' ∧ c ≠ '+' := by
  obtain ⟨first, rest, rfl, hfirst⟩ := h.exists_cons
  intro c hc
  obtain rfl : first = c := by simpa using hc
  rcases hfirst with hdigit | rfl
  · exact ne_sign_of_isDigit hdigit
  · decide

/-- What is taken off a text for an unsigned decimal is all of it: digits, perhaps a point and
    more digits, and an exponent. -/
theorem unsigned_of_taken {whole : List Char} {taken : List Char × List Char} {e : Int}
    (hwhole : cs.takeWhile Char.isDigit = whole)
    (htaken : takeFraction (cs.dropWhile Char.isDigit) = taken)
    (hne : ¬(whole = [] ∧ taken.1 = [])) (he : readExponent? taken.2 = some e) :
    Unsigned cs (Nat.ofDigitChars 10 (whole ++ taken.1) 0) (e - taken.1.length) := by
  have hexponent := readExponent?_eq_some_iff.1 he
  have hdigits := hwhole ▸ forall_takeWhile_isDigit cs
  rw [← List.takeWhile_append_dropWhile (p := Char.isDigit) (l := cs), hwhole]
  generalize cs.dropWhile Char.isDigit = behind at htaken ⊢
  unfold takeFraction at htaken
  split at htaken <;> subst htaken
  · rename_i behind
    simpa only [List.takeWhile_append_dropWhile] using
      Unsigned.pointed hne hdigits (forall_takeWhile_isDigit behind) hexponent
  · have hwhole : whole ≠ [] := fun hnil => hne ⟨hnil, rfl⟩
    simpa using Unsigned.whole hwhole hdigits hexponent

/-- A decimal is read as the number nearest to it, and nothing else is read as one. -/
theorem readDecimal?_eq_some_iff : readDecimal? cs = some x ↔
    ∃ sign rest negative c e, cs = sign ++ rest ∧ SignPart sign negative ∧ Unsigned rest c e ∧
      ofDecimal negative c e = x := by
  constructor
  · intro h
    obtain ⟨sign, hsign, hcs⟩ := exists_of_takeSign cs
    simp only [readDecimal?] at h
    split at h
    · simp at h
    · rename_i hne
      obtain ⟨e, he, hx⟩ := Option.map_eq_some_iff.1 h
      exact ⟨sign, _, _, _, _, hcs, hsign, unsigned_of_taken rfl rfl hne he, hx⟩
  · rintro ⟨sign, rest, negative, c, e, rfl, hsign, hrest, rfl⟩
    simp only [readDecimal?, hsign.takeSign hrest.ne_sign]
    cases hrest with
    | @whole digits exponent e hne hdigits hexponent =>
      obtain ⟨hdigit, hpoint⟩ := hexponent.stops
      rw [Text.takeWhile_run hdigits hdigit, Text.dropWhile_run hdigits hdigit,
        takeFraction_of_stops hpoint, if_neg fun h => hne h.1,
        readExponent?_eq_some_iff.2 hexponent]
      simp
    | @pointed whole fraction exponent e hne hwhole hfraction hexponent =>
      have hpoint : Text.Stops Char.isDigit ('.' :: (fraction ++ exponent)) :=
        Text.stops_cons.2 (by decide)
      obtain ⟨hdigit, -⟩ := hexponent.stops
      rw [Text.takeWhile_run hwhole hpoint, Text.dropWhile_run hwhole hpoint]
      simp only [takeFraction, Text.takeWhile_run hfraction hdigit,
        Text.dropWhile_run hfraction hdigit, if_neg hne, readExponent?_eq_some_iff.2 hexponent]
      rfl

/-! ## Whole numbers in other bases -/

@[elab_as_elim]
theorem bases_cases {motive : Char → Nat → Prop} {letter : Char} {base : Nat}
    (h : (letter, base) ∈ bases) (hall : motive 'x' 16 ∧ motive 'X' 16 ∧ motive 'o' 8 ∧
      motive 'O' 8 ∧ motive 'b' 2 ∧ motive 'B' 2) : motive letter base := by
  simp only [bases, List.mem_cons, Prod.mk.injEq, List.not_mem_nil, or_false] at h
  obtain ⟨hx, hX, ho, hO, hb, hB⟩ := hall
  rcases h with ⟨rfl, rfl⟩ | ⟨rfl, rfl⟩ | ⟨rfl, rfl⟩ | ⟨rfl, rfl⟩ | ⟨rfl, rfl⟩ | ⟨rfl, rfl⟩
  exacts [hx, hX, ho, hO, hb, hB]

/-- A sign is no digit of any base. -/
theorem digitValue?_plus (base : Nat) : digitValue? base '+' = none := rfl

theorem not_isWhole_plus (base : Nat) (cs : List Char) (n : Nat) : ¬IsWhole base ('+' :: cs) n := by
  rintro ⟨-, values, hvalues, -⟩
  cases hvalues with
  | cons hplus => simp [digitValue?_plus] at hplus

theorem mapM_eq_some_iff {α β : Type} {f : α → Option β} {as : List α} {bs : List β} :
    as.mapM f = some bs ↔ List.Forall₂ (fun a b => f a = some b) as bs := by
  induction as generalizing bs with
  | nil => simp [List.mapM_nil, eq_comm]
  | cons a as ih =>
    cases bs with
    | nil => simp [List.mapM_cons, Option.bind_eq_some_iff]
    | cons b bs => simp [List.mapM_cons, ih, Option.bind_eq_some_iff]

/-- Digits are read from the left. -/
theorem foldl_eq_ofDigits (base : Nat) (values : List Nat) :
    values.foldl (fun n value => base * n + value) 0 = Nat.ofDigits base values.reverse := by
  rw [Nat.ofDigits_eq_foldr, List.foldr_reverse]
  simp only [Nat.cast_id, Nat.add_comm]

theorem IsWhole.unique {base n n' : Nat} (h : IsWhole base cs n) (h' : IsWhole base cs n') :
    n = n' := by
  obtain ⟨-, values, hvalues, rfl⟩ := h
  obtain ⟨-, values', hvalues', rfl⟩ := h'
  rw [← mapM_eq_some_iff] at hvalues hvalues'
  rw [Option.some.inj (hvalues.symm.trans hvalues')]

/-- A whole number is read if it is taken for one, and nothing else is read. -/
theorem readWhole?_eq_some_iff {base n : Nat} : readWhole? base cs = some n ↔ IsTaken base cs n := by
  have of_digits (digits : List Char) :
      ((if digits = [] then none else (digits.mapM (digitValue? base)).bind fun values =>
        let n := values.foldl (fun n value => base * n + value) 0
        if n < wholeLimit then some n else none) = some n) ↔
        IsWhole base digits n ∧ n < wholeLimit := by
    by_cases hnil : digits = []
    · simp [hnil, IsWhole]
    · rw [if_neg hnil, Option.bind_eq_some_iff]
      simp only [mapM_eq_some_iff, foldl_eq_ofDigits, Option.ite_none_right_eq_some,
        Option.some.injEq]
      constructor
      · rintro ⟨values, hvalues, hlt, rfl⟩
        exact ⟨⟨hnil, values, hvalues, rfl⟩, hlt⟩
      · rintro ⟨⟨-, values, hvalues, rfl⟩, hlt⟩
        exact ⟨values, hvalues, hlt, rfl⟩
  unfold readWhole?
  split
  · rename_i digits
    refine (of_digits digits).trans (and_congr_left fun _ => ?_)
    simp [not_isWhole_plus]
  · rename_i hne
    refine (of_digits cs).trans (and_congr_left fun _ => ?_)
    rw [or_iff_left]
    rintro ⟨digits, rfl, -⟩
    exact hne digits rfl

/-! ## All numerals -/

/-- Behind a zero and the letter of a base, a whole number is read. -/
theorem readTrimmed?_of_base {letter : Char} {base : Nat} (h : (letter, base) ∈ bases) :
    readTrimmed? ('0' :: letter :: cs) = (readWhole? base cs).map fun n => ofDecimal false n 0 :=
  bases_cases h ⟨rfl, rfl, rfl, rfl, rfl, rfl⟩

/-- The texts that are not read as decimals: nothing, a whole number behind the letter of a base,
    and the infinities. -/
theorem readTrimmed?_cases (cs : List Char) :
    cs = [] ∨ (∃ letter base rest, (letter, base) ∈ bases ∧ cs = '0' :: letter :: rest) ∨
      (∃ sign negative, SignPart sign negative ∧ cs = sign ++ "Infinity".toList ∧
        readTrimmed? cs = some (.infinite negative)) ∨ readTrimmed? cs = readDecimal? cs := by
  have of_letter (base : Nat) {letter : Char} {rest : List Char} (h : (letter, base) ∈ bases) :
      ∃ other base more, (other, base) ∈ bases ∧ '0' :: letter :: rest = '0' :: other :: more :=
    ⟨letter, base, rest, h, rfl⟩
  unfold readTrimmed?
  split
  · exact .inl rfl
  · refine .inr ?_
    split
    · rename_i hletter
      exact .inl (by rcases hletter with rfl | rfl <;> exact of_letter 16 (by decide))
    · split
      · rename_i hletter
        exact .inl (by rcases hletter with rfl | rfl <;> exact of_letter 8 (by decide))
      · split
        · rename_i hletter
          exact .inl (by rcases hletter with rfl | rfl <;> exact of_letter 2 (by decide))
        · exact .inr (.inr rfl)
  · refine .inr (.inr ?_)
    split
    · rename_i hinfinity
      rcases hinfinity with rfl | rfl
      · exact .inl ⟨[], false, .absent, rfl, rfl⟩
      · exact .inl ⟨['+'], false, .plus, rfl, rfl⟩
    · split
      · rename_i hinfinity
        subst hinfinity
        exact .inl ⟨['-'], true, .minus, rfl, rfl⟩
      · exact .inr rfl

instance : DecidablePred IsDecimalChar := fun c =>
  inferInstanceAs (Decidable (c.isDigit ∨ c ∈ ['.', 'e', 'E', '+', '-']))

theorem not_isDecimalChar_of_mem_bases {letter : Char} {base : Nat} (h : (letter, base) ∈ bases) :
    ¬IsDecimalChar letter :=
  bases_cases h (by decide)

/-- Where only characters of decimals stand, a decimal is read. -/
theorem readTrimmed?_of_isDecimalChar (hne : cs ≠ []) (h : ∀ c ∈ cs, IsDecimalChar c) :
    readTrimmed? cs = readDecimal? cs := by
  have not_mem {c : Char} (hc : ¬IsDecimalChar c) : c ∉ cs := fun hmem => hc (h c hmem)
  rcases readTrimmed?_cases cs with hnil | ⟨letter, base, rest, hletter, rfl⟩ |
    ⟨sign, negative, -, rfl, -⟩ | hread
  · exact absurd hnil hne
  · have hletter := not_isDecimalChar_of_mem_bases hletter
    exact absurd (List.mem_cons_of_mem _ List.mem_cons_self) (not_mem hletter)
  · have hletter : ¬IsDecimalChar 'I' := by decide
    exact absurd (List.mem_append_right _ (by decide)) (not_mem hletter)
  · exact hread

/-- A text without blanks around it reads as a number if and only if it is a numeral, with what
    is taken for a whole number behind the letter of a base. -/
theorem readTrimmed?_eq_some_iff : readTrimmed? cs = some x ↔ Numeral IsTaken cs x := by
  constructor
  · intro h
    rcases readTrimmed?_cases cs with rfl | ⟨letter, base, rest, hletter, rfl⟩ |
      ⟨sign, negative, hsign, rfl, hread⟩ | hread
    · obtain rfl := Option.some.inj h
      exact .blank
    · rw [readTrimmed?_of_base hletter, Option.map_eq_some_iff] at h
      obtain ⟨n, hn, hx⟩ := h
      exact .based hletter (readWhole?_eq_some_iff.1 hn) (isNearest_iff.2 hx)
    · obtain rfl := Option.some.inj (hread.symm.trans h)
      exact .infinity hsign
    · obtain ⟨sign, rest, negative, c, e, rfl, hsign, hrest, hx⟩ :=
        readDecimal?_eq_some_iff.1 (hread.symm.trans h)
      exact .decimal hsign hrest (isNearest_iff.2 hx)
  · intro h
    cases h with
    | blank => rfl
    | infinity hsign => cases hsign <;> rfl
    | @decimal sign rest negative c e _ hsign hrest hx =>
      have hchars : ∀ c ∈ sign ++ rest, IsDecimalChar c :=
        List.forall_mem_append.2 ⟨hsign.isDecimalChar, hrest.isDecimalChar⟩
      obtain ⟨first, more, rfl, -⟩ := hrest.exists_cons
      rw [readTrimmed?_of_isDecimalChar (by simp) hchars]
      exact readDecimal?_eq_some_iff.2 ⟨_, _, _, _, _, rfl, hsign, hrest, isNearest_iff.1 hx⟩
    | based hletter hdigits hx =>
      rw [readTrimmed?_of_base hletter, readWhole?_eq_some_iff.2 hdigits, Option.map_some,
        isNearest_iff.1 hx]

/-! ## Where the digits of a base do not count alone -/

/-- A whole number in another base that does not read as its digits say: it is read in spite of
    a plus sign, or it is not read as it does not fit into 64 bits. -/
inductive IsMisread : List Char → Prop
  | signed {letter : Char} {base n : Nat} {digits : List Char} : (letter, base) ∈ bases →
    IsWhole base digits n → n < wholeLimit → IsMisread ('0' :: letter :: '+' :: digits)
  | long {letter : Char} {base n : Nat} {digits : List Char} : (letter, base) ∈ bases →
    IsWhole base digits n → wholeLimit ≤ n → IsMisread ('0' :: letter :: digits)

theorem base_unique {letter : Char} {base base' : Nat} (h : (letter, base) ∈ bases)
    (h' : (letter, base') ∈ bases) : base = base' :=
  have hnodup : (bases.map Prod.fst).Nodup := by decide
  congrArg Prod.snd (List.inj_on_of_nodup_map hnodup h h' rfl)

/-- A numeral with the letter of a base is a whole number in that base. -/
theorem numeral_based_iff {Whole : Nat → List Char → Nat → Prop} {letter : Char} {base : Nat}
    (h : (letter, base) ∈ bases) :
    Numeral Whole ('0' :: letter :: cs) x ↔ ∃ n, Whole base cs n ∧ IsNearest false n 0 x := by
  constructor
  · intro hnumeral
    generalize htext : '0' :: letter :: cs = text at hnumeral
    cases hnumeral with
    | blank => simp at htext
    | infinity hsign => cases hsign <;> simp at htext
    | decimal hsign hrest =>
      -- The letter is no character of decimals.
      have hchars := List.forall_mem_append.2 ⟨hsign.isDecimalChar, hrest.isDecimalChar⟩
      rw [← htext] at hchars
      exact absurd (hchars letter (List.mem_cons_of_mem _ List.mem_cons_self))
        (not_isDecimalChar_of_mem_bases h)
    | based hletter hdigits hx =>
      obtain ⟨-, rfl, rfl⟩ : '0' = '0' ∧ letter = _ ∧ cs = _ := by simpa using htext
      obtain rfl := base_unique h hletter
      exact ⟨_, hdigits, hx⟩
  · rintro ⟨n, hn, hx⟩
    exact .based h hn hx

/-- What may stand behind the letter of a base matters for no other numerals. -/
theorem Numeral.imp {Whole Whole' : Nat → List Char → Nat → Prop} (h : Numeral Whole cs x)
    (himp : ∀ letter base digits n, (letter, base) ∈ bases → cs = '0' :: letter :: digits →
      Whole base digits n → Whole' base digits n) : Numeral Whole' cs x := by
  cases h with
  | blank => exact .blank
  | infinity hsign => exact .infinity hsign
  | decimal hsign hrest hx => exact .decimal hsign hrest hx
  | based hletter hdigits hx => exact .based hletter (himp _ _ _ _ hletter rfl hdigits) hx

/-- A text reads as a number if and only if it is a numeral between blanks, where a whole number
    in another base has to fit into 64 bits and may have a plus sign in front of its digits. So
    all texts read as if only the digits of the base were to stand there, apart from the whole
    numbers that have such a sign or do not fit. -/
theorem read?_iff_numeral (s : String) :
    (∀ x, read? s = some x ↔ Numeral IsTaken (Text.trim s.toList) x) ∧
      ((∀ x, read? s = some x ↔ Numeral IsWhole (Text.trim s.toList) x) ↔
        ¬IsMisread (Text.trim s.toList)) := by
  have hread (x : Number) : read? s = some x ↔ Numeral IsTaken (Text.trim s.toList) x :=
    readTrimmed?_eq_some_iff
  refine ⟨hread, ?_⟩
  simp only [hread]
  generalize Text.trim s.toList = text
  constructor
  · intro h hmisread
    cases hmisread with
    | @signed letter base n digits hletter hdigits hlt =>
      have htaken : Numeral IsTaken ('0' :: letter :: '+' :: digits) (ofDecimal false n 0) :=
        .based hletter ⟨.inr ⟨digits, rfl, hdigits⟩, hlt⟩ (isNearest_iff.2 rfl)
      obtain ⟨n', hplus, -⟩ := (numeral_based_iff hletter).1 ((h _).1 htaken)
      exact not_isWhole_plus _ _ _ hplus
    | @long letter base n digits hletter hdigits hle =>
      have hwhole : Numeral IsWhole ('0' :: letter :: digits) (ofDecimal false n 0) :=
        .based hletter hdigits (isNearest_iff.2 rfl)
      obtain ⟨n', ⟨hdigits' | ⟨more, rfl, -⟩, hlt⟩, -⟩ :=
        (numeral_based_iff hletter).1 ((h _).2 hwhole)
      · exact Nat.not_lt.2 hle (hdigits.unique hdigits' ▸ hlt)
      · exact not_isWhole_plus _ _ _ hdigits
  · intro h x
    constructor
    · refine fun hx => hx.imp fun letter base digits n hletter heq => ?_
      rintro ⟨hdigits | ⟨more, rfl, hdigits⟩, hlt⟩
      · exact hdigits
      · exact absurd (heq ▸ .signed hletter hdigits hlt) h
    · refine fun hx => hx.imp fun letter base digits n hletter heq hdigits => ?_
      exact ⟨.inl hdigits, Nat.lt_of_not_le fun hle => h (heq ▸ .long hletter hdigits hle)⟩

/-- Neither do all texts that read as numbers consist of the digits that the grammar asks for, nor
    do all that consist of these read as numbers. -/
theorem not_forall_read?_iff_numeral :
    (¬∀ s x, read? s = some x → Numeral IsWhole (Text.trim s.toList) x) ∧
      ¬∀ s x, Numeral IsWhole (Text.trim s.toList) x → read? s = some x := by
  have hbase : ('x', 16) ∈ bases := by decide
  constructor
  · intro h
    have hread : read? "0x+5" = some (ofDecimal false 5 0) := by decide +kernel
    have hnumeral : Numeral IsWhole ['0', 'x', '+', '5'] _ := h _ _ hread
    obtain ⟨n, hplus, -⟩ := (numeral_based_iff hbase).1 hnumeral
    exact not_isWhole_plus _ _ _ hplus
  · intro h
    have hdigits : IsWhole 16 "10000000000000000".toList wholeLimit := by
      refine ⟨by decide, 1 :: List.replicate 16 0, mapM_eq_some_iff.1 (by decide), by decide⟩
    have hread := h "0x10000000000000000" (ofDecimal false wholeLimit 0)
      (.based hbase hdigits (isNearest_iff.2 rfl))
    have hnone : read? "0x10000000000000000" = none := by decide +kernel
    rw [hnone] at hread
    simp at hread

end Criteria.Number

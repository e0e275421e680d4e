import Criteria.Number.Basic

/-!
# JSON tokens

The tokens of a JSON text, with numbers and strings as they are written.

* `Numeral`: a number as it is written;
* `Token.split?`: the tokens of a text, if all of it is made of tokens.
-/

namespace Criteria

namespace Json

/-- A number as it is written: `coefficient * 10 ^ exponent` with a sign, and whether it
    is an integer with all of its digits. Digits for which the coefficient has no room in
    64 bits are left out. -/
structure Numeral where
  negative : Bool
  coefficient : Nat
  exponent : Int
  whole : Bool
  fits : coefficient < Number.wholeLimit
  deriving DecidableEq

/-- Appends digits to a whole number as long as it fits into 64 bits, and what is left of
    them. -/
def appendDigits (n : Nat) : List Char → Nat × List Char
  | [] => (n, [])
  | c :: digits =>
    let next := 10 * n + (c.toNat - '0'.toNat)
    if next < Number.wholeLimit then appendDigits next digits else (n, c :: digits)

theorem appendDigits_lt {n : Nat} (h : n < Number.wholeLimit) (digits : List Char) :
    (appendDigits n digits).1 < Number.wholeLimit := by
  induction digits generalizing n with
  | nil => exact h
  | cons c digits ih =>
    rw [appendDigits]
    split
    · exact ih ‹_›
    · exact h

/-- The number that is written with the given digits and exponent. Every digit that is left
    out of the whole part stands for a factor of ten; those of the fraction count for
    nothing. -/
def Numeral.ofDigits (negative : Bool) (whole fraction : List Char) (exponent? : Option Int) :
    Numeral :=
  let upper := appendDigits 0 whole
  let lower := appendDigits upper.1 fraction
  { negative
    coefficient := lower.1
    exponent := exponent?.getD 0 + upper.2.length - (fraction.length - lower.2.length : Nat)
    whole := fraction = [] && exponent?.isNone && upper.2 = []
    fits := appendDigits_lt (appendDigits_lt (by decide) whole) fraction }

/-- A part of a JSON text. A string is held as its characters, or as none if an
    escape in it stands for half of a character. -/
inductive Token
  | openBracket
  | closeBracket
  | openBrace
  | closeBrace
  | comma
  | colon
  | null
  | boolean (b : Bool)
  | number (n : Numeral)
  | string (s : Option String)
  deriving DecidableEq

namespace Token

/-- The blanks between tokens. -/
def isBlank (c : Char) : Bool := c == ' ' || c == '\n' || c == '\t' || c == '\r'

/-! ## Numbers -/

/-- The digits of a fraction or exponent, at least one, and what follows them. -/
def takeDigits? (cs : List Char) : Option (List Char × List Char) :=
  let digits := cs.takeWhile Char.isDigit
  if digits = [] then none else some (digits, cs.dropWhile Char.isDigit)

/-- The digits of a whole part, which start with zero only if that is all, and
    what follows them. -/
def takeWhole? (cs : List Char) : Option (List Char × List Char) :=
  match takeDigits? cs with
  | some ('0' :: _ :: _, _) => none
  | taken => taken

/-- The fraction, if there is one, and what follows it. -/
def takeFraction? (cs : List Char) : Option (List Char × List Char) :=
  match cs with
  | '.' :: rest => takeDigits? rest
  | rest => some ([], rest)

/-- The exponent, if there is one, and what follows it. -/
def takeExponent? (cs : List Char) : Option (Option Int × List Char) :=
  match cs with
  | [] => some (none, [])
  | c :: rest =>
    if c = 'e' ∨ c = 'E' then
      let (negative, rest) := match rest with
        | '-' :: rest => (true, rest)
        | '+' :: rest => (false, rest)
        | rest => (false, rest)
      (takeDigits? rest).map fun (digits, rest) =>
        let size : Int := Nat.ofDigitChars 10 digits 0
        (some (if negative then -size else size), rest)
    else some (none, cs)

/-- The number that starts a text, and what follows it. -/
def takeNumber? (cs : List Char) : Option (Numeral × List Char) :=
  let (negative, rest) := match cs with
    | '-' :: rest => (true, rest)
    | rest => (false, rest)
  (takeWhole? rest).bind fun (digits, rest) =>
    (takeFraction? rest).bind fun (fraction, rest) =>
      (takeExponent? rest).map fun (exponent?, rest) =>
        (.ofDigits negative digits fraction exponent?, rest)

/-! ## Strings -/

/-- The value of a digit of base sixteen. -/
def hexValue? (c : Char) : Option Nat :=
  if c.isDigit then some (c.toNat - 48)
  else if 'a' ≤ c ∧ c ≤ 'f' then some (c.toNat - 87)
  else if 'A' ≤ c ∧ c ≤ 'F' then some (c.toNat - 55)
  else none

/-- The value of four digits of base sixteen. -/
def hexValues? (a b c d : Char) : Option Nat :=
  match hexValue? a, hexValue? b, hexValue? c, hexValue? d with
  | some a, some b, some c, some d => some (((a * 16 + b) * 16 + c) * 16 + d)
  | _, _, _, _ => none

/-- The character of a short escape. -/
def unescape? : Char → Option Char
  | '"' => some '"'
  | '\\' => some '\\'
  | '/' => some '/'
  | 'b' => some '\x08'
  | 'f' => some '\x0c'
  | 'n' => some '\n'
  | 'r' => some '\r'
  | 't' => some '\t'
  | _ => none

/-- The characters of a string so far, in reverse, or none if a half of a
    character stands alone in it; and the first half of a character that awaits
    its second. -/
structure Content where
  chars : Option (List Char) := some []
  half : Option Nat := none

namespace Content

/-- Adds a character. -/
def addChar (content : Content) (c : Char) : Content where
  chars := if content.half.isSome then none else content.chars.map (c :: ·)

/-- Adds a unit of sixteen bits: a character, or the first or second half of one. -/
def addUnit (content : Content) (unit : Nat) : Content :=
  let isSecond := 0xDC00 ≤ unit ∧ unit ≤ 0xDFFF
  match content.half with
  | some first =>
    -- The two halves hold ten bits each of the distance from U+10000.
    if isSecond then
      let c := Char.ofNat (0x10000 + (first - 0xD800) * 0x400 + (unit - 0xDC00))
      { chars := content.chars.map (c :: ·) }
    else { chars := none }
  | none =>
    if 0xD800 ≤ unit ∧ unit ≤ 0xDBFF then { content with half := some unit }
    else if isSecond then { chars := none }
    else content.addChar (Char.ofNat unit)

/-- The string of the characters. -/
def toString? (content : Content) : Option String :=
  if content.half.isSome then none
  else content.chars.map fun chars => String.ofList chars.reverse

end Content

/-- The rest of a string behind its content so far, and what follows it. -/
def takeString? (content : Content) : List Char → Option (Option String × List Char)
  | [] => none
  | '"' :: rest => some (content.toString?, rest)
  | '\\' :: 'u' :: a :: b :: c :: d :: rest =>
    match hexValues? a b c d with
    | none => none
    | some unit => takeString? (content.addUnit unit) rest
  | '\\' :: c :: rest =>
    match unescape? c with
    | none => none
    | some c => takeString? (content.addChar c) rest
  | c :: rest => if c.toNat < 0x20 then none else takeString? (content.addChar c) rest

/-! ## Texts -/

/-- The token that starts a text, and what follows it. -/
def take? (c : Char) (rest : List Char) : Option (Token × List Char) :=
  match c with
  | '[' => some (.openBracket, rest)
  | ']' => some (.closeBracket, rest)
  | '{' => some (.openBrace, rest)
  | '}' => some (.closeBrace, rest)
  | ',' => some (.comma, rest)
  | ':' => some (.colon, rest)
  | '"' => (takeString? {} rest).map fun (s, rest) => (.string s, rest)
  | 'n' => match rest with
    | 'u' :: 'l' :: 'l' :: rest => some (.null, rest)
    | _ => none
  | 't' => match rest with
    | 'r' :: 'u' :: 'e' :: rest => some (.boolean true, rest)
    | _ => none
  | 'f' => match rest with
    | 'a' :: 'l' :: 's' :: 'e' :: rest => some (.boolean false, rest)
    | _ => none
  | c => (takeNumber? (c :: rest)).map fun (n, rest) => (.number n, rest)

theorem length_takeDigits? {cs : List Char} {taken : List Char × List Char}
    (h : takeDigits? cs = some taken) : taken.2.length < cs.length := by
  simp only [takeDigits?] at h
  split at h
  · simp at h
  · rename_i hd
    simp only [Option.some.injEq] at h
    subst h
    have := congrArg List.length (List.takeWhile_append_dropWhile (p := Char.isDigit) (l := cs))
    have hp := List.length_pos_iff.2 hd
    simp only [List.length_append] at this
    simp only
    omega

theorem length_takeWhole? {cs : List Char} {taken : List Char × List Char}
    (h : takeWhole? cs = some taken) : taken.2.length < cs.length := by
  unfold takeWhole? at h
  split at h
  · simp at h
  · exact length_takeDigits? h

theorem length_takeFraction? {cs : List Char} {taken : List Char × List Char}
    (h : takeFraction? cs = some taken) : taken.2.length ≤ cs.length := by
  unfold takeFraction? at h
  split at h
  · have := length_takeDigits? h
    simp only [List.length_cons]
    omega
  · simp only [Option.some.injEq] at h
    subst h
    exact Nat.le_refl _

theorem length_takeExponent? {cs : List Char} {taken : Option Int × List Char}
    (h : takeExponent? cs = some taken) : taken.2.length ≤ cs.length := by
  unfold takeExponent? at h
  split at h
  · simp only [Option.some.injEq] at h
    subst h
    exact Nat.le_refl _
  · rename_i c rest
    split at h
    · obtain ⟨digits, hd, rfl⟩ := Option.map_eq_some_iff.1 h
      have := length_takeDigits? hd
      revert this
      split <;> simp only [List.length_cons] <;> omega
    · simp only [Option.some.injEq] at h
      subst h
      exact Nat.le_refl _

theorem length_takeNumber? {cs : List Char} {taken : Numeral × List Char}
    (h : takeNumber? cs = some taken) : taken.2.length < cs.length := by
  unfold takeNumber? at h
  obtain ⟨whole, hw, h⟩ := Option.bind_eq_some_iff.1 h
  obtain ⟨fraction, hf, h⟩ := Option.bind_eq_some_iff.1 h
  obtain ⟨exponent, he, rfl⟩ := Option.map_eq_some_iff.1 h
  have h₁ := length_takeWhole? hw
  have h₂ := length_takeFraction? hf
  have h₃ := length_takeExponent? he
  revert h₁
  split <;> simp only [List.length_cons] <;> omega

theorem length_takeString? {content : Content} {cs : List Char}
    {taken : Option String × List Char} (h : takeString? content cs = some taken) :
    taken.2.length < cs.length := by
  fun_induction takeString? content cs with
  | case1 => simp at h
  | case2 => simp only [Option.some.injEq] at h; subst h; simp
  | case3 => simp at h
  | case4 _ _ _ _ _ _ _ _ ih => have := ih h; simp only [List.length_cons]; omega
  | case5 => simp at h
  | case6 _ _ _ _ _ _ ih => have := ih h; simp only [List.length_cons]; omega
  | case7 => simp at h
  | case8 _ _ _ _ _ _ _ ih => have := ih h; simp only [List.length_cons]; omega

/-- A token takes at least the character that starts it. -/
theorem length_take? {c : Char} {rest : List Char} {taken : Token × List Char}
    (h : take? c rest = some taken) : taken.2.length ≤ rest.length := by
  unfold take? at h
  split at h
  case h_7 =>
    obtain ⟨string, hs, rfl⟩ := Option.map_eq_some_iff.1 h
    exact Nat.le_of_lt (length_takeString? hs)
  case h_11 =>
    obtain ⟨number, hn, rfl⟩ := Option.map_eq_some_iff.1 h
    have := length_takeNumber? hn
    simp only [List.length_cons] at this
    exact Nat.le_of_lt_succ this
  all_goals grind

/-- The tokens of a text, if all of it is tokens and blanks. -/
def split? (cs : List Char) : Option (List Token) :=
  match cs with
  | [] => some []
  | c :: rest =>
    if isBlank c then split? rest
    else
      match _h : take? c rest with
      | none => none
      | some (token, after) => (split? after).map (token :: ·)
termination_by cs.length
decreasing_by
  · simp
  · have : after.length ≤ rest.length := length_take? _h
    simp only [List.length_cons]
    omega

end Token

end Json

end Criteria

import Criteria.Number.Basic
import Criteria.Text.Blank

/-!
# Numerals

The texts that read as numbers: decimal numerals with an optional point and an
optional exponent, whole numbers in base sixteen, eight or two behind `0x`, `0o`
or `0b`, and the word `Infinity` with an optional sign. Blanks at either end do
not count, and a blank text reads as zero.

* `Number.read?`: the number that a text reads as.
-/

namespace Criteria

namespace Number

/-- The optional sign at the start of a text, and what follows it. -/
def takeSign : List Char → Bool × List Char
  | '-' :: rest => (true, rest)
  | '+' :: rest => (false, rest)
  | rest => (false, rest)

/-- The exponent part of a numeral: nothing, or `e` or `E`, an optional sign and
    at least one digit. -/
def readExponent? : List Char → Option Int
  | [] => some 0
  | c :: rest =>
    if c = 'e' ∨ c = 'E' then
      let (negative, digits) := takeSign rest
      if digits ≠ [] ∧ digits.all Char.isDigit then
        let size : Int := Nat.ofDigitChars 10 digits 0
        some (if negative then -size else size)
      else none
    else none

/-- The optional fraction of a numeral, and what follows it. -/
def takeFraction : List Char → List Char × List Char
  | '.' :: rest => (rest.takeWhile Char.isDigit, rest.dropWhile Char.isDigit)
  | rest => ([], rest)

/-- Reads a decimal numeral: an optional sign, digits with an optional point, at
    least one digit on either side of it, and an optional exponent. -/
def readDecimal? (cs : List Char) : Option Number :=
  let (negative, rest) := takeSign cs
  let whole := rest.takeWhile Char.isDigit
  let (fraction, rest) := takeFraction (rest.dropWhile Char.isDigit)
  if whole = [] ∧ fraction = [] then none
  else (readExponent? rest).map fun exponent =>
    ofDecimal negative (Nat.ofDigitChars 10 (whole ++ fraction) 0) (exponent - fraction.length)

/-- The value of a digit in bases up to sixteen. -/
def digitValue? (base : Nat) (c : Char) : Option Nat :=
  let value? :=
    if c.isDigit then some (c.toNat - 48)
    else if 'a' ≤ c ∧ c ≤ 'f' then some (c.toNat - 87)
    else if 'A' ≤ c ∧ c ≤ 'F' then some (c.toNat - 55)
    else none
  value?.filter (· < base)

/-- Reads a whole number below `2 ^ 64` in a given base, with an optional plus
    sign. -/
def readWhole? (base : Nat) (cs : List Char) : Option Nat :=
  let digits := match cs with
    | '+' :: rest => rest
    | rest => rest
  if digits = [] then none
  else (digits.mapM (digitValue? base)).bind fun values =>
    let n := values.foldl (fun n value => base * n + value) 0
    if n < wholeLimit then some n else none

/-- Reads a numeral without blanks around it. -/
def readTrimmed? (cs : List Char) : Option Number :=
  match cs with
  | [] => some (zero false)
  | '0' :: base :: rest =>
    if base = 'x' ∨ base = 'X' then (readWhole? 16 rest).map fun n => ofDecimal false n 0
    else if base = 'o' ∨ base = 'O' then (readWhole? 8 rest).map fun n => ofDecimal false n 0
    else if base = 'b' ∨ base = 'B' then (readWhole? 2 rest).map fun n => ofDecimal false n 0
    else readDecimal? cs
  | _ =>
    if cs = "Infinity".toList ∨ cs = "+Infinity".toList then some (.infinite false)
    else if cs = "-Infinity".toList then some (.infinite true)
    else readDecimal? cs

/-- The number that a text reads as, if it is a numeral. -/
def read? (s : String) : Option Number := readTrimmed? (Text.trim s.toList)

end Number

end Criteria

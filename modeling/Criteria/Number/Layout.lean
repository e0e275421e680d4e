import Criteria.Number.Shortest

/-!
# Number texts

A finite number is written with the digits of its shortest decimal, in
positional form (`0.05`, `1200`) or, if it is very large or very small, in
exponent form (`1.5e-7`, `1e+21`).

* `Layout`: the choices that two kinds of text make differently;
* `Layout.write`: the text of a finite number;
* `Number.text`: the text of any number in rules and messages.
-/

namespace Criteria

/-- The choices in writing a finite number. -/
structure Layout where
  /-- Which digits stand for a number halfway between two shortest decimals. -/
  tie : Tie
  /-- The least exponent of the first digit that is written in positional form. -/
  least : Int
  /-- The first exponent of the first digit that is too large for positional form. -/
  limit : Int
  /-- What follows a whole number in positional form. -/
  afterWhole : List Char
  /-- Whether a negative zero shows its sign. -/
  signedZero : Bool

namespace Layout

/-- Positional form: the point among the digits, with zeros to reach it. -/
def positional (layout : Layout) (d : Decimal) : List Char :=
  let digits := d.digits
  -- How many digits stand before the point.
  let point : Int := digits.length + d.exponent
  if 0 ≤ d.exponent then digits ++ List.replicate d.exponent.toNat '0' ++ layout.afterWhole
  else if 0 < point then digits.take point.toNat ++ '.' :: digits.drop point.toNat
  else '0' :: '.' :: (List.replicate (-point).toNat '0' ++ digits)

/-- Exponent form: one digit before the point, and an exponent with its sign. -/
def scientific (d : Decimal) : List Char :=
  let digits := d.digits
  let exponent : Int := digits.length + d.exponent - 1
  let mantissa := match digits with
    | [] => []
    | [first] => [first]
    | first :: more => first :: '.' :: more
  mantissa ++ 'e' :: (if exponent < 0 then '-' else '+') :: Nat.toDigits 10 exponent.natAbs

/-- The text of a positive decimal. -/
def writeDecimal (layout : Layout) (d : Decimal) : List Char :=
  let exponent : Int := d.digits.length + d.exponent - 1
  if layout.least ≤ exponent ∧ exponent < layout.limit then layout.positional d
  else scientific d

/-- The text of the finite number with a sign and a rank. -/
def write (layout : Layout) (negative : Bool) (rank : Nat) : List Char :=
  if rank = 0 then
    (if negative && layout.signedZero then ['-'] else []) ++ '0' :: layout.afterWhole
  else
    (if negative then ['-'] else []) ++ layout.writeDecimal (Number.shortest layout.tie rank)

end Layout

namespace Number

/-- Numbers in rules and messages: positional from `0.000001` up to and without
    `1e+21`, whole numbers without a point, zero without a sign. -/
def plain : Layout where
  tie := .up
  least := -6
  limit := 21
  afterWhole := []
  signedZero := false

/-- The text of a number in rules and messages. -/
def text : Number → String
  | .nan => "NaN"
  | .infinite negative => if negative then "-Infinity" else "Infinity"
  | .finite negative rank => String.ofList (plain.write negative rank)

end Number

end Criteria

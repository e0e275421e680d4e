import Criteria.Number.Basic

/-!
# Shortest decimals

The decimal that stands for a number in text is the one with the fewest digits
that reads back as the number, and of those the nearest to it.

* `Decimal`: a whole coefficient times a power of ten;
* `shortest`: the decimal that stands for a rank. Every candidate is tried by
  reading it back, and the exact value is the last resort, so that the result
  always reads back.
-/

namespace Criteria

/-- The value `coefficient * 10 ^ exponent`. -/
structure Decimal where
  coefficient : Nat
  exponent : Int
  deriving DecidableEq

namespace Decimal

/-- The decimal digits of the coefficient. -/
def digits (d : Decimal) : List Char := Nat.toDigits 10 d.coefficient

/-- The same value with a coefficient that does not end in zero. -/
def trimZeros (coefficient : Nat) (exponent : Int) : Decimal :=
  if coefficient ≠ 0 ∧ coefficient % 10 = 0 then trimZeros (coefficient / 10) (exponent + 1)
  else ⟨coefficient, exponent⟩
termination_by coefficient

/-- The number nearest to the decimal with a sign. -/
def toNumber (d : Decimal) (negative : Bool) : Number :=
  .ofDecimal negative d.coefficient d.exponent

end Decimal

/-- Which of two decimals stands for a value halfway between them. -/
inductive Tie
  | up
  | even
  deriving DecidableEq

namespace Number

/-- The exact decimal value of a rank. -/
def exactDecimal (rank : Nat) : Decimal :=
  let e := scale rank
  let significand := rank - e * binade
  if e < 1074 then ⟨significand * Nat.pow 5 (1074 - e), e - 1074⟩
  else ⟨significand <<< (e - 1074), 0⟩

/-- The decimal with `size` digits that stands for a rank with an exact value of
    `width` digits, if one of the two neighbours of the exact value with that many
    digits reads back: the one that does, the nearer one if both do, and the one that
    `tie` says halfway. -/
def candidate? (tie : Tie) (rank : Nat) (exact : Decimal) (width size : Nat) :
    Option Decimal :=
  let dropped := width - size
  let grid := Nat.pow 10 dropped
  let low := exact.coefficient / grid
  let rest := exact.coefficient % grid
  let exponent := exact.exponent + dropped
  -- The neighbours of the exact value on the grid of `size` digits.
  let lower := Decimal.trimZeros low exponent
  let upper := Decimal.trimZeros (low + 1) exponent
  match lower.toNumber false == ofRank false rank, upper.toNumber false == ofRank false rank with
  | true, false => some lower
  | false, true => some upper
  | false, false => none
  | true, true =>
    -- Both neighbours read back: the distance to the exact value decides.
    if 2 * rest < grid then some lower
    else if grid < 2 * rest then some upper
    else match tie with
      | .up => some upper
      | .even => some (if low % 2 = 0 then lower else upper)

/-- The decimal that stands for a rank. Seventeen digits are always enough. -/
def shortest (tie : Tie) (rank : Nat) : Decimal :=
  let exact := exactDecimal rank
  let width := exact.digits.length
  match (List.range' 1 17).findSome? (candidate? tie rank exact width) with
  | some d => d
  | none => Decimal.trimZeros exact.coefficient exact.exponent

end Number

end Criteria

import Criteria.Number.Basic

/-!
# Scaling by powers of ten

A whole number is multiplied or divided by a power of ten in the arithmetic of
binary64 numbers, where every step is rounded: the whole number itself, the power of
ten, and the product or quotient. So the result is near the decimal, but need not be
the number nearest to it.

* `product`, `quotient`, `powerOfTen`: the steps, on ranks;
* `ofScaled`: the number that a whole number is scaled to.
-/

namespace Criteria

namespace Number

/-- The rank of the product of two magnitudes. -/
def product (a b : Nat) : Nat := nearestRank (units a * units b) (1 <<< 2148)

/-- The rank of the quotient of two magnitudes. -/
def quotient (a b : Nat) : Nat := nearestRank (units a) (units b)

/-- The rank of a power of ten. -/
def powerOfTen (k : Nat) : Nat := nearestRank (Nat.pow 10 k) 1

/-- The exponent of the largest power of ten that is a finite number. -/
def largestPower : Nat := 308

/-- The rank of a magnitude that is divided so many times by the largest power of ten.
    Zero is not divided any more. -/
def shrink : Nat → Nat → Nat
  | 0, rank => rank
  | times + 1, rank =>
    if rank = 0 then 0 else shrink times (quotient rank (powerOfTen largestPower))

/-- What `coefficient * 10 ^ exponent` is computed as, with a sign. If its power of ten
    is too small for one division, the largest power is divided out first. -/
def ofScaled (negative : Bool) (coefficient : Nat) (exponent : Int) : Number :=
  let rank := nearestRank coefficient 1
  if rank = 0 then zero negative
  else if exponent < 0 then
    let size := (-exponent).toNat
    let times := (size - 1) / largestPower
    ofRank negative (quotient (shrink times rank) (powerOfTen (size - times * largestPower)))
  else if largestPower < exponent then .infinite negative
  else ofRank negative (product rank (powerOfTen exponent.toNat))

end Number

end Criteria

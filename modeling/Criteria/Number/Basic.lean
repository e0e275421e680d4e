/-!
# Numbers

The numbers that rules compare are the binary64 data of IEEE 754: finite
magnitudes with a sign, the two infinities, and one not-a-number.

A finite magnitude is held by its *rank* among all finite magnitudes, from `0`
for zero to `Number.ranks - 1` for the largest. Its value is a whole number of
*units* of `2 ^ -1074`, the least positive magnitude, and the units grow with
the rank, so that ranks compare as values do.

* `nearestRank`: the rank nearest to a ratio, a tie going to the even rank;
* `ofDecimal`: the number nearest to a signed decimal;
* `less`, `==`: the order and the equality of numbers, under which the two zeros
  are equal and not-a-number is equal and comparable to nothing.
-/

namespace Criteria

/-- How many magnitudes share the distance between neighbours: `2 ^ 52`. -/
def Number.binade : Nat := 0x10000000000000

/-- How many finite magnitudes there are. -/
def Number.ranks : Nat := 2047 * Number.binade

/-- A binary64 number. -/
inductive Number
  | nan
  | infinite (negative : Bool)
  | finite (negative : Bool) (rank : Fin Number.ranks)
  deriving DecidableEq

namespace Number

/-! ## Magnitudes -/

/-- The binary exponent of the units of a rank: `0` below `2 ^ 53`, and one more
    with every further `2 ^ 52` ranks. -/
def scale (rank : Nat) : Nat := rank / binade - 1

/-- The magnitude of a rank, in units of `2 ^ -1074`. -/
def units (rank : Nat) : Nat := (rank - scale rank * binade) <<< scale rank

/-- The greatest rank whose magnitude is at most `n` units. -/
def rankBelow (n : Nat) : Nat :=
  let e := n.log2 - 52
  e * binade + n >>> e

/-- The rank whose magnitude is nearest to `num / den`. Of two that are equally
    near it is the even one. Ranks beyond the finite ones continue the same
    scale, so that a magnitude is too large exactly if its rank is. -/
def nearestRank (num den : Nat) : Nat :=
  let scaled := num <<< 1074
  let low := rankBelow (scaled / den)
  -- Twice the mean of the two neighbours, in the same measure as `2 * scaled`.
  let middle := den * (units low + units (low + 1))
  if 2 * scaled < middle then low
  else if middle < 2 * scaled then low + 1
  else low + low % 2

/-- The number of a rank: infinite if the rank is beyond the finite ones. -/
def ofRank (negative : Bool) (rank : Nat) : Number :=
  if h : rank < ranks then .finite negative ⟨rank, h⟩ else .infinite negative

/-- Zero with a sign. -/
def zero (negative : Bool) : Number := ofRank negative 0

/-- The number nearest to a ratio with a sign. -/
def ofRatio (negative : Bool) (num den : Nat) : Number := ofRank negative (nearestRank num den)

/-- The number nearest to `coefficient * 10 ^ exponent` with a sign. Exponents
    that are sure to give zero or an infinity are not computed with. -/
def ofDecimal (negative : Bool) (coefficient : Nat) (exponent : Int) : Number :=
  if coefficient = 0 then zero negative
  else if 400 < exponent then .infinite negative
  else if exponent + coefficient.log2 + 1200 < 0 then zero negative
  else ofRatio negative (coefficient * Nat.pow 10 exponent.toNat) (Nat.pow 10 (-exponent).toNat)

/-- The first whole number that does not fit into 64 bits. -/
def wholeLimit : Nat := 0x10000000000000000

/-- The number nearest to an integer. -/
def ofInt (i : Int) : Number := ofDecimal (i < 0) i.natAbs 0

/-! ## Order -/

/-- Whether the number is neither infinite nor not-a-number. -/
def isFinite : Number → Bool
  | .finite _ _ => true
  | _ => false

/-- The place of a number on the line of all numbers; not-a-number has none, and
    the two zeros share theirs. -/
def place? : Number → Option Int
  | .nan => none
  | .infinite negative => some (if negative then -ranks else ranks)
  | .finite negative rank => some (if negative then -rank.val else rank.val)

/-- Whether one number is less than another. -/
def less (x y : Number) : Bool :=
  match x.place?, y.place? with
  | some i, some j => i < j
  | _, _ => false

/-- Whether two numbers are equal as numbers. -/
def equal (x y : Number) : Bool :=
  match x.place?, y.place? with
  | some i, some j => i == j
  | _, _ => false

instance : BEq Number := ⟨equal⟩

/-! ## Bits -/

/-- The bit of the sign. -/
def signBit : Nat := 0x8000000000000000

/-- The interchange format of a number: the sign, then the rank. All data that
    are not a number have the same bits. -/
def toBits : Number → Nat
  | .nan => 0x7FF8000000000000
  | .infinite negative => negative.toNat * signBit + ranks
  | .finite negative rank => negative.toNat * signBit + rank.val

/-- The number with the given bits. -/
def ofBits (bits : Nat) : Number :=
  let negative := bits / signBit % 2 == 1
  let rank := bits % signBit
  if h : rank < ranks then .finite negative ⟨rank, h⟩
  else if rank = ranks then .infinite negative
  else .nan

end Number

end Criteria

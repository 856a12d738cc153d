/-!
# Shortest decimals

The fewest decimal digits that read back to a given double, and of those the
nearest to it.

A positive finite double is a whole number of some power of two, and the
reals that round to it form an interval around it. Every number of decimal
digits is a grid, the multiples of one power of ten. The search walks from
coarse grids to finer ones and stops at the first that has a point in the
interval, which is then one of the two grid neighbours of the value. All
tests are comparisons of natural numbers, so nothing is ever rounded on the
way.

## Main definitions

* `Binary`: A positive double as a whole number of powers of two.
* `Digits`: A decimal number, digits and a power of ten.
* `Tie`: Which of two equally near candidates is taken.
* `Binary.shortest`: The fewest digits that read back.
-/

namespace CyclePlan

namespace Decimal

/-- Which of two equally near grid points is taken. -/
inductive Tie where
  | up
  | even
  deriving DecidableEq, Repr

/-- A decimal number, `digits` times ten to the power `exponent`. -/
structure Digits where
  /-- The significant digits, read as one number. -/
  digits : Nat
  /-- The power of ten of the last digit. -/
  exponent : Int
  deriving DecidableEq, Repr

/-- A positive double, `mantissa` times two to the power `exponent`. -/
structure Binary where
  mantissa : Nat
  /-- The power of two of the last bit. -/
  exponent : Int
  /-- The gap below the value is half the gap above it, which happens at the
      powers of two. -/
  narrowBelow : Bool
  deriving DecidableEq, Repr

/-- The bit above the fraction field, which is one in every double with a
    positive exponent field and is not stored. -/
def hiddenBit : Nat := 0x10000000000000

/-- The finite positive double with the given exponent and fraction fields. -/
def Binary.ofFields (exponent fraction : Nat) : Binary :=
  if exponent = 0 then ⟨fraction, -1074, false⟩
  else ⟨fraction + hiddenBit, (exponent : Int) - 1075, fraction = 0 && exponent > 1⟩

namespace Binary

variable (b : Binary)

/-- The value, in quarters of its last bit. -/
def middle : Nat := 4 * b.mantissa

/-- The upper end of the interval that reads back to the value, in quarters of
    its last bit. -/
def upper : Nat := b.middle + 2

/-- The lower end of that interval. -/
def lower : Nat := b.middle - if b.narrowBelow then 1 else 2

/-- The factor that takes quarters of the last bit to the scale on which they
    are compared with multiples of ten to the power `k`. -/
def bitScale (k : Int) : Nat := Nat.pow 2 (b.exponent - 2).toNat * Nat.pow 10 (-k).toNat

/-- The factor that takes multiples of ten to the power `k` to that scale. -/
def gridScale (k : Int) : Nat := Nat.pow 2 (2 - b.exponent).toNat * Nat.pow 10 k.toNat

/-- Whether `c` times ten to the power `k` reads back to the value. The ends of
    the interval do so when the mantissa is even. -/
def readsBack (k : Int) (c : Nat) : Bool :=
  let point := c * b.gridScale k
  let low := b.lower * b.bitScale k
  let high := b.upper * b.bitScale k
  if b.mantissa % 2 = 0 then low ≤ point && point ≤ high
  else low < point && point < high

/-- The point of the grid of ten to the power `k` that reads back, if there is
    one, the nearer of two. -/
def onGrid? (tie : Tie) (k : Int) : Option Nat :=
  let value := b.middle * b.bitScale k
  let below := value / b.gridScale k
  let above := below + 1
  let downGap := value - below * b.gridScale k
  let upGap := above * b.gridScale k - value
  -- Used only when both neighbours read back.
  let nearer :=
    if downGap < upGap then below
    else if upGap < downGap then above
    else match tie with
      | .up => above
      | .even => if below % 2 = 0 then below else above
  match b.readsBack k below, b.readsBack k above with
  | true, true => some nearer
  | true, false => some below
  | false, true => some above
  | false, false => none

/-- Searches the grids from the power `k` downwards, `steps` of them. -/
def search (tie : Tie) : Nat → Int → Option Digits
  | 0, _ => none
  | steps + 1, k =>
    match b.onGrid? tie k with
    | some c => some ⟨c, k⟩
    | none => search tie steps (k - 1)

/-- A power of ten above the value. -/
def ceiling : Int := ((b.mantissa.log2 : Int) + 1 + b.exponent) * 30103 / 100000 + 1

/-- The fewest digits that read back, the nearest of those to the value. A
    double needs at most seventeen, and the search starts at most two grids
    above the first digit. -/
def shortest (tie : Tie) : Digits :=
  (b.search tie 24 b.ceiling).getD ⟨0, 0⟩

end Binary

end Decimal

end CyclePlan

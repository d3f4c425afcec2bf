import GraphQLText.Number.Binary

/-!
# Shortest decimals

The decimal written for a binary number is the shortest one that reads back as that number.  The
decimals that read back are those of an interval around the number; a decimal is shorter the
coarser the grid of powers of ten it lies on.  The grids are nested, so it is enough to go from a
grid that is too coarse to finer ones and to stop at the first that has a point in the interval.
That point is then one of the two neighbours of the number on this grid, and no multiple of ten is
left in it.
-/

namespace GraphQLText

/-- A decimal number without a sign denotes `coefficient * 10 ^ exponent`. -/
structure Decimal where
  coefficient : Nat
  exponent : Int
deriving DecidableEq

/-- The exact rational that a decimal denotes. -/
def Decimal.value (d : Decimal) : Rat :=
  d.coefficient * (10 : Rat) ^ d.exponent

/-- An interval of rationals, with both of its ends or with none. -/
structure Interval where
  lower : Rat
  upper : Rat
  isClosed : Bool

/-- Whether a rational lies in the interval. -/
def Interval.contains (i : Interval) (x : Rat) : Bool :=
  if i.isClosed then decide (i.lower ≤ x) && decide (x ≤ i.upper)
  else decide (i.lower < x) && decide (x < i.upper)

/-- Of the two neighbours of `x` on the grid of step `10 ^ k` the nearer one that lies in the
interval; of two that are equally near the upper one. -/
def nearestOnGrid? (i : Interval) (x : Rat) (k : Int) : Option Decimal :=
  let unit : Rat := (10 : Rat) ^ k
  let below := (x / unit).floor.toNat
  let lower := below * unit
  let upper := lower + unit
  match i.contains lower, i.contains upper with
  | true, true => some ⟨if x - lower < upper - x then below else below + 1, k⟩
  | true, false => some ⟨below, k⟩
  | false, true => some ⟨below + 1, k⟩
  | false, false => none

/-- A power of ten that is larger than the positive rational `x`, by the lengths of its numerator
and denominator. -/
def decadeAbove (x : Rat) : Int :=
  (Nat.toDigits 10 x.num.natAbs).length - (Nat.toDigits 10 x.den).length + 1

namespace Binary

variable {f : BinaryFormat}

/-- The positive rationals that round to the nonzero number `x`: up to half a unit away, and half of
that below a power of two, where the numbers lie closer together.  The two ends belong to it when
the significand is even, as a tie goes to the even significand. -/
def roundingInterval (x : Binary f) : Interval :=
  let unit : Rat := (2 : Rat) ^ x.exponent
  let unitBelow : Rat :=
    if x.fractionField == 0 && decide (1 < x.exponentField.toNat) then unit / 2 else unit
  { lower := x.magnitude - unitBelow / 2
    upper := x.magnitude + unit / 2
    isClosed := x.significand % 2 == 0 }

/-- The exponents of the grids that are searched for the nonzero number `x`, coarsest first.  As
many as the significand has bits, and a few more, always suffice. -/
def gridExponents (x : Binary f) : List Int :=
  let top := decadeAbove x.magnitude
  (List.range (f.fractionBits + 4)).map fun (i : Nat) => top - i

/-- The shortest decimal that reads back as the finite number `x` up to its sign, and the nearest of
these.  Zero has the single digit `0`. -/
def shortest (x : Binary f) : Decimal :=
  if x.isZero then ⟨0, 0⟩
  else (x.gridExponents.findSome? (nearestOnGrid? x.roundingInterval x.magnitude)).getD ⟨0, 0⟩

end Binary

end GraphQLText

import GraphQLText.Number.Shortest

/-!
# Rounding decimals to binary numbers

A decimal read as a number of a binary format denotes the number nearest to it; when two are equally
near, the one with the even significand.  Decimals beyond the largest finite number round to an
infinity.
-/

namespace GraphQLText

/-- The natural number nearest to a rational that is not negative; a tie goes to the even one. -/
def roundHalfEven (x : Rat) : Nat :=
  let below := x.floor.toNat
  let distance := x - below
  if distance < 1 / 2 then below
  else if 1 / 2 < distance then below + 1
  else if below % 2 = 0 then below else below + 1

/-- The power of two at which a positive rational has its leading bit. -/
def leadingPower (x : Rat) : Int :=
  let estimate : Int := (Nat.log2 x.num.natAbs : Int) - (Nat.log2 x.den : Int)
  if (2 : Rat) ^ estimate ≤ x then estimate else estimate - 1

namespace BinaryFormat

/-- The pattern of the infinity, without its sign. -/
def infinityPattern (f : BinaryFormat) : Nat :=
  ((1 <<< f.exponentBits) - 1) <<< f.fractionBits

/-- The pattern, without its sign, of the number nearest to a rational that is not negative.  The
rounded significand is added to the exponent field as a whole, so that a significand that rounds up
to the next power of two carries into the exponent. -/
def roundedPattern (f : BinaryFormat) (x : Rat) : Nat :=
  if x = 0 then 0
  else
    let exponent := max f.leastExponent (leadingPower x - f.fractionBits)
    let significand := roundHalfEven (x / (2 : Rat) ^ exponent)
    min f.infinityPattern
      ((exponent - f.leastExponent).toNat <<< f.fractionBits + significand)

end BinaryFormat

/-- The number of the format `f` nearest to a decimal, with the given sign. -/
def Decimal.round (f : BinaryFormat) (isNegative : Bool) (d : Decimal) : Binary f :=
  let sign := if isNegative then 1 <<< (f.exponentBits + f.fractionBits) else 0
  ⟨BitVec.ofNat f.width (sign + f.roundedPattern d.value)⟩

end GraphQLText

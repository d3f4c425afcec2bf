/-!
# Binary floating-point numbers

A binary floating-point number is kept as its pattern of bits: a sign, a biased exponent field and
a fraction field, as the interchange formats lay them out.  Everything else is read off the three
fields.  A finite number denotes the exact rational `significand * 2 ^ exponent`, with its sign, so
that statements about its decimal text are statements about rationals and never about rounded
arithmetic.
-/

namespace GraphQLText

/-- An interchange format is given by the widths of its two fields and the bias of the exponent. -/
structure BinaryFormat where
  exponentBits : Nat
  fractionBits : Nat
  bias : Nat

namespace BinaryFormat

def binary32 : BinaryFormat := ⟨8, 23, 127⟩

def binary64 : BinaryFormat := ⟨11, 52, 1023⟩

/-- One bit of the pattern is the sign. -/
def width (f : BinaryFormat) : Nat :=
  1 + f.exponentBits + f.fractionBits

/-- The spacing of the numbers next to zero is two to this power. -/
def leastExponent (f : BinaryFormat) : Int :=
  1 - f.bias - f.fractionBits

end BinaryFormat

/-- A number of the format `f`, by its pattern of bits. -/
structure Binary (f : BinaryFormat) where
  bits : BitVec f.width

abbrev Binary32 := Binary .binary32

abbrev Binary64 := Binary .binary64

/-- A pattern that stands for no rational number is an infinity or not a number at all. -/
inductive NonFinite where
  | nan
  | infinity
  | negativeInfinity
deriving DecidableEq

namespace Binary

variable {f : BinaryFormat}

/-- The first bit says whether a minus sign stands before the number, zero included. -/
def isNegative (x : Binary f) : Bool :=
  x.bits.msb

/-- The exponent field, still with its bias. -/
def exponentField (x : Binary f) : BitVec f.exponentBits :=
  x.bits.extractLsb' f.fractionBits f.exponentBits

def fractionField (x : Binary f) : BitVec f.fractionBits :=
  x.bits.extractLsb' 0 f.fractionBits

/-- A subnormal number or zero has an exponent field of zeros. -/
def isSubnormal (x : Binary f) : Bool :=
  x.exponentField == 0

/-- A number is finite unless its exponent field is full. -/
def isFinite (x : Binary f) : Bool :=
  x.exponentField != BitVec.allOnes f.exponentBits

/-- A full exponent field with a fraction other than zero is not a number. -/
def isNaN (x : Binary f) : Bool :=
  !x.isFinite && x.fractionField != 0

/-- Zero has either sign. -/
def isZero (x : Binary f) : Bool :=
  x.isSubnormal && x.fractionField == 0

/-- The kind of a pattern that is not finite. -/
def nonFinite? (x : Binary f) : Option NonFinite :=
  if x.isFinite then none
  else if x.isNaN then some .nan
  else if x.isNegative then some .negativeInfinity
  else some .infinity

/-- The significand is the fraction, after a leading one unless the number is subnormal. -/
def significand (x : Binary f) : Nat :=
  (BitVec.ofBool (!x.isSubnormal) ++ x.fractionField).toNat

/-- The unit of the significand is two to this power; it is the same for the subnormal numbers and
for the first normal ones. -/
def exponent (x : Binary f) : Int :=
  f.leastExponent + (x.exponentField.toNat - 1 : Nat)

/-- The exact size of a finite number, without its sign. -/
def magnitude (x : Binary f) : Rat :=
  x.significand * (2 : Rat) ^ x.exponent

/-- Numbers compare by value: no NaN equals anything, and the two zeros are equal. -/
def beq (x y : Binary f) : Bool :=
  !x.isNaN && !y.isNaN && (x.bits == y.bits || x.isZero && y.isZero)

instance : BEq (Binary f) := ⟨beq⟩

end Binary

end GraphQLText

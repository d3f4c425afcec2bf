import GraphQLText.Number.Shortest

/-!
# Number literals

An integer is written by its decimal digits.  A floating-point number is written by its shortest
decimal, so that the literal reads back as the same number, and always with a fraction or an
exponent, so that it is never mistaken for an integer.  Whether it has an exponent depends on where
its leading digit stands.
-/

namespace GraphQLText.Numeral

/-- The decimal digits of a natural number, without leading zeros. -/
def digits (n : Nat) : List Char :=
  Nat.toDigits 10 n

/-- An integer is its digits, after a minus sign when it is negative. -/
def ofInt (n : Int) : List Char :=
  if n < 0 then '-' :: digits n.natAbs else digits n.natAbs

/-- The number with the digits `ds`, the first of them at the given power of ten, written with a
point.  At least one digit stands on either side of it. -/
def positional (ds : List Char) : Int → List Char
  | .ofNat n =>
    let fraction := ds.drop (n + 1)
    ds.take (n + 1) ++ List.replicate (n + 1 - ds.length) '0' ++
      '.' :: (if fraction.isEmpty then ['0'] else fraction)
  | .negSucc n => '0' :: '.' :: (List.replicate n '0' ++ ds)

/-- The number with the digits `ds`, the first of them at the power `e` of ten, written with an
exponent.  A single digit has no point after it. -/
def scientific (ds : List Char) (e : Int) : List Char :=
  let fraction := ds.drop 1
  ds.take 1 ++ (if fraction.isEmpty then [] else '.' :: fraction) ++ 'e' :: ofInt e

/-- The least power of ten at which a leading digit is written positionally. -/
def leastPositional : Int := -4

/-- The greatest power of ten at which a leading digit is written positionally. -/
def greatestPositional : Int := 15

/-- A decimal is written positionally or with an exponent, by the power of ten of its leading
digit. -/
def ofDecimal (d : Decimal) : List Char :=
  let ds := digits d.coefficient
  let e := d.exponent + ds.length - 1
  if leastPositional ≤ e ∧ e ≤ greatestPositional then positional ds e else scientific ds e

/-- A finite binary number is its shortest decimal, after a minus sign when its sign bit is set. -/
def ofBinary {f : BinaryFormat} (x : Binary f) : List Char :=
  if x.isNegative then '-' :: ofDecimal x.shortest else ofDecimal x.shortest

end GraphQLText.Numeral

import GraphQLText.Lexical.Token
import GraphQLText.Number.Rounding

/-!
# Reading numbers

The exact value of a number literal, and the binary number nearest to it.
-/

namespace GraphQLText.Numeral

/-- The integer that is written by digits, perhaps after a sign. -/
def integer : List Char → Int
  | '-' :: digits => -(Nat.ofDigitChars 10 digits 0 : Int)
  | '+' :: digits => Nat.ofDigitChars 10 digits 0
  | digits => Nat.ofDigitChars 10 digits 0

/-- The sign of a number literal and its decimal without the sign.  The digits after the point move
the decimal to smaller powers of ten. -/
def decimal? (cs : List Char) : Option (Bool × Decimal) := do
  let (sign, unsigned) := match cs with
    | '-' :: unsigned => (true, unsigned)
    | unsigned => (false, unsigned)
  let (whole, afterWhole) ← Token.takeNatural unsigned
  let (fraction, afterFraction) := Token.takeFraction afterWhole
  let (exponent, rest) := Token.takeExponent afterFraction
  let decimals := fraction.drop 1
  if rest.isEmpty then
    some (sign, {
      coefficient := Nat.ofDigitChars 10 (whole ++ decimals) 0
      exponent := integer (exponent.drop 1) - decimals.length })
  else none

/-- The number of the format `f` nearest to what a literal denotes. -/
def binary? (f : BinaryFormat) (cs : List Char) : Option (Binary f) :=
  (decimal? cs).map fun (sign, decimal) => decimal.round f sign

end GraphQLText.Numeral

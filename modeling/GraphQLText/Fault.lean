import GraphQLText.Number.Binary

/-!
# Faults

A tree need not have a text: names are stored unchecked, a floating-point number need not be
finite, and a document may be empty.  A fault says which of these is the case.  Each fault has one
message for a human reader.
-/

namespace GraphQLText

/-- Numbers that no GraphQL literal denotes. -/
inductive UnsupportedNumber where
  | nonFinite (kind : NonFinite)
  | oversizedInteger (n : Nat)
deriving DecidableEq

/-- The reason why a tree has no text. -/
inductive Fault where
  | invalidName (text : String)
  | reservedFragmentName
  | reservedEnumValue (word : String)
  | emptyDocument
  | unsupportedNumber (number : UnsupportedNumber)
deriving DecidableEq

/-- The usual short name of a number that is not finite. -/
def NonFinite.label : NonFinite → String
  | nan => "NaN"
  | infinity => "inf"
  | negativeInfinity => "-inf"

/-- What is wrong with the number. -/
def UnsupportedNumber.description : UnsupportedNumber → String
  | nonFinite kind => "non-finite float `" ++ kind.label ++ "`"
  | oversizedInteger n =>
    "integer `" ++ String.ofList (Nat.toDigits 10 n) ++ "` does not fit in a GraphQL Int"

/-- The message of a fault quotes the offending text as it is, without escapes. -/
def Fault.message : Fault → String
  | invalidName text => "`" ++ text ++ "` is not a valid GraphQL name"
  | reservedFragmentName => "`on` cannot be used as a fragment name"
  | reservedEnumValue word => "`" ++ word ++ "` cannot be used as an enum value"
  | emptyDocument => "a document must contain at least one definition"
  | unsupportedNumber number => "unsupported value type: " ++ number.description

end GraphQLText

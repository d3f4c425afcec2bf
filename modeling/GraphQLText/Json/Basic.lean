import GraphQLText.Number.Binary
import GraphQLText.Tree.Value

/-!
# JSON values

JSON data, as it can be given for the variables of a document.  A number is an integer of up to 64
bits, with or without a sign, or a finite floating-point number.  An object is a list of members.
The type leaves open whether a key is repeated among them: objects with each key once are those that
`Json.ofMembers` builds, and `Json.HasDistinctKeys` says that all objects inside of data are such.
-/

namespace GraphQLText

namespace Json

/-- The integers that fit in 64 bits, with a sign or without. -/
structure Integer where
  val : Int
  least : -9223372036854775808 ≤ val
  greatest : val ≤ 18446744073709551615

/-- The floating-point numbers of JSON are finite. -/
structure Float where
  val : Binary64
  isFinite : val.isFinite = true

end Json

/-- A JSON value. -/
inductive Json where
  | null
  | boolean (b : Bool)
  | integer (n : Json.Integer)
  | float (x : Json.Float)
  | string (contents : String)
  | array (items : List Json)
  | object (members : List (String × Json))

namespace Json

/-- The object that is built by inserting the members in order: a repeated key keeps its first place
and takes its last value. -/
def ofMembers (members : List (String × Json)) : Json :=
  .object (Entries.collect members)

end Json

end GraphQLText

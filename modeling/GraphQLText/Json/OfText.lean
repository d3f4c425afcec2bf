import GraphQLText.Json.Basic
import GraphQLText.Reading.Reader

/-!
# JSON data from a text

The JSON data that a value in a text stands for.  Integer literals become integers and all other
numbers the nearest numbers of double width.  Variables and enum values stand for no JSON data.
-/

namespace GraphQLText

namespace Json

/-- The JSON integer of this size, if there is one. -/
def Integer.ofInt? (n : Int) : Option Integer :=
  if h : -9223372036854775808 ≤ n ∧ n ≤ 18446744073709551615 then some ⟨n, h.1, h.2⟩ else none

/-- The JSON number with this floating-point value, if it is finite. -/
def Float.ofBinary? (x : Binary64) : Option Float :=
  if h : x.isFinite = true then some ⟨x, h⟩ else none

end Json

namespace Literal

mutual

/-- The JSON data that a literal stands for. -/
def json? : Literal → Option Json
  | .string contents => some (.string contents)
  | .blockString _ => none
  | .int n => (Json.Integer.ofInt? n).map .integer
  | .float text => do
    let x ← Numeral.binary? .binary64 text.toList
    let finite ← Json.Float.ofBinary? x
    return .float finite
  | .boolean b => some (.boolean b)
  | .null => some .null
  | .list items => (jsonItems? items).map .array
  | .object fields => (jsonMembers? fields).map .object
  | .variable _ => none
  | .enum _ => none
termination_by structural literal => literal

/-- The JSON data that the items of a list stand for. -/
def jsonItems? : List Literal → Option (List Json)
  | [] => some []
  | item :: rest => do
    let json ← json? item
    let others ← jsonItems? rest
    return json :: others
termination_by structural items => items

/-- The JSON data that the fields of an object stand for. -/
def jsonMembers? : List (Name × Literal) → Option (List (String × Json))
  | [] => some []
  | (name, item) :: rest => do
    let json ← json? item
    let others ← jsonMembers? rest
    return (name.text, json) :: others
termination_by structural fields => fields

end

end Literal

/-- The JSON data that a text stands for, if it is a value without variables and enum values. -/
def Json.ofText? (text : String) : Option Json :=
  (Literal.read? text).bind Literal.json?

end GraphQLText

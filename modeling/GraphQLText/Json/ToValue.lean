import GraphQLText.Json.Basic

/-!
# JSON data as values

A JSON value becomes the value of the same shape: integers stay integers, floating-point numbers
become numbers of double width, and objects become maps whose keys are checked only when they are
written.  The only JSON values without a counterpart are those that hold an integer too large for a
GraphQL integer; the first of these in reading order is the fault.
-/

namespace GraphQLText.Json

/-- The greatest integer value. -/
def greatestInt : Int := 9223372036854775807

/-- An integer is kept if it fits. -/
def Integer.toValue (n : Integer) : Except Fault Value :=
  if n.val ≤ greatestInt then .ok (.int (Int64.ofInt n.val))
  else .error (.unsupportedNumber (.oversizedInteger n.val.toNat))

mutual

/-- The value of the same shape, or the first integer that is too large. -/
def toValue : Json → Except Fault Value
  | .null => .ok .null
  | .boolean b => .ok (.boolean b)
  | .integer n => n.toValue
  | .float x => .ok (.double x.val)
  | .string contents => .ok (.string contents)
  | .array items => (toValues items).map .list
  | .object members => (toEntries members).map .map
termination_by structural json => json

/-- The values of the items of an array. -/
def toValues : List Json → Except Fault (List Value)
  | [] => .ok []
  | item :: rest => do
    let value ← toValue item
    let values ← toValues rest
    return value :: values
termination_by structural items => items

/-- The entries for the members of an object. -/
def toEntries : List (String × Json) → Except Fault (List (Name × Value))
  | [] => .ok []
  | (key, member) :: rest => do
    let value ← toValue member
    let entries ← toEntries rest
    return (⟨key⟩, value) :: entries
termination_by structural members => members

end

end GraphQLText.Json

import GraphQLText.Lexical.Name
import GraphQLText.Number.Binary
import GraphQLText.Tree.Entries

/-!
# Values

The values that a document can hold, as arguments or as defaults of variables.  There are two kinds
of object value.  A map is built from pairs by `Value.ofPairs`, so that it has each key once, and is
compared without regard to order.  An object keeps its fields as given, repeats included, and is
compared in order.
-/

namespace GraphQLText

/-- A value that can be written in a document.  The two floating-point widths are kept apart, since
the shortest literal of a number depends on its width. -/
inductive Value where
  | string (contents : String)
  | int (n : Int64)
  | single (x : Binary32)
  | double (x : Binary64)
  | boolean (b : Bool)
  | null
  | list (items : List Value)
  | map (entries : List (Name × Value))
  | object (fields : List (Name × Value))
  | variable (var : Variable)
  | enum (value : EnumValue)

/-- An object value on its own, as a list of fields. -/
structure ObjectValue where
  fields : List (Name × Value) := []

namespace ObjectValue

def toValue (object : ObjectValue) : Value :=
  .object object.fields

def addField (object : ObjectValue) (name : Name) (value : Value) : ObjectValue :=
  ⟨object.fields ++ [(name, value)]⟩

end ObjectValue

namespace Value

/-- The map that is built by inserting the pairs in order. -/
def ofPairs (pairs : List (Name × Value)) : Value :=
  .map (Entries.collect pairs)

/-- Removes the first entry with the given key whose value passes a test. -/
def eraseFirst? (key : Name) (test : Value → Bool) :
    List (Name × Value) → Option (List (Name × Value))
  | [] => none
  | (k, v) :: rest =>
    if k = key && test v then some rest else (eraseFirst? key test rest).map ((k, v) :: ·)

mutual

/-- Equality of values.  Values of different kinds differ, floating-point numbers compare by value,
and maps compare without regard to the order of their entries. -/
def beq : Value → Value → Bool
  | .string s, .string t => s == t
  | .int m, .int n => m == n
  | .single x, .single y => x == y
  | .double x, .double y => x == y
  | .boolean a, .boolean b => a == b
  | .null, .null => true
  | .list xs, .list ys => beqList xs ys
  | .map xs, .map ys => beqEntries xs ys
  | .object xs, .object ys => beqFields xs ys
  | .variable x, .variable y => x == y
  | .enum x, .enum y => x == y
  | _, _ => false
termination_by structural value => value

def beqList : List Value → List Value → Bool
  | [], [] => true
  | x :: xs, y :: ys => beq x y && beqList xs ys
  | _, _ => false
termination_by structural items => items

/-- Equality of the fields of two objects, in order. -/
def beqFields : List (Name × Value) → List (Name × Value) → Bool
  | [], [] => true
  | (k, x) :: xs, (l, y) :: ys => k == l && beq x y && beqFields xs ys
  | _, _ => false
termination_by structural fields => fields

/-- Equality of the entries of two maps: each entry of the one is matched with an equal entry of the
other, and none is left over. -/
def beqEntries : List (Name × Value) → List (Name × Value) → Bool
  | [], ys => ys.isEmpty
  | (k, x) :: xs, ys =>
    match eraseFirst? k (beq x) ys with
    | some rest => beqEntries xs rest
    | none => false
termination_by structural entries => entries

end

instance : BEq Value := ⟨beq⟩

end Value

instance : BEq ObjectValue := ⟨fun a b => Value.beqFields a.fields b.fields⟩

end GraphQLText

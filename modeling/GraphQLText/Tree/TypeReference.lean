import GraphQLText.Lexical.Name

/-!
# Type references

The type of a variable is a named type, a list type or the non-null form of one of these.  A list
type normally has a single item; any number of items is kept here.
-/

namespace GraphQLText

mutual

inductive TypeReference where
  | named (name : Name)
  | list (items : List TypeReference)
  | nonNull (inner : NonNullType)

/-- A type that can be made non-null. -/
inductive NonNullType where
  | named (name : Name)
  | list (items : List TypeReference)

end

namespace TypeReference

/-- The list type with one item. -/
def listOf (item : TypeReference) : TypeReference :=
  .list [item]

/-- The non-null form of a named type. -/
def nonNullNamed (name : Name) : TypeReference :=
  .nonNull (.named name)

/-- The non-null form of a list type with one item. -/
def nonNullListOf (item : TypeReference) : TypeReference :=
  .nonNull (.list [item])

end TypeReference

/-- The same type without the demand that it is not null. -/
def NonNullType.nullable : NonNullType → TypeReference
  | .named name => .named name
  | .list items => .list items

mutual

def TypeReference.beq : TypeReference → TypeReference → Bool
  | .named a, .named b => a == b
  | .list xs, .list ys => TypeReference.beqList xs ys
  | .nonNull a, .nonNull b => a.beq b
  | _, _ => false
termination_by structural type => type

def NonNullType.beq : NonNullType → NonNullType → Bool
  | .named a, .named b => a == b
  | .list xs, .list ys => TypeReference.beqList xs ys
  | _, _ => false
termination_by structural type => type

def TypeReference.beqList : List TypeReference → List TypeReference → Bool
  | [], [] => true
  | x :: xs, y :: ys => x.beq y && TypeReference.beqList xs ys
  | _, _ => false
termination_by structural items => items

end

instance : BEq TypeReference := ⟨TypeReference.beq⟩
instance : BEq NonNullType := ⟨NonNullType.beq⟩

end GraphQLText

import GraphQLText.Lexical.Numeral
import GraphQLText.Tree.Map
import GraphQLText.Tree.Value

/-!
# What a text says

A text says less than the tree it was written from.  It does not tell a map from an object, or a
number of single from one of double width; it has only the literal of the number.  An operation
whose name is the empty text cannot be told from one without a name.  The normal form of a document
is what is left after this; a reader recovers exactly that.
-/

namespace GraphQLText

/-- A value as it stands in a text. -/
inductive Literal where
  | string (contents : String)
  | blockString (text : String)
  | int (n : Int)
  | float (text : String)
  | boolean (b : Bool)
  | null
  | list (items : List Literal)
  | object (fields : List (Name × Literal))
  | variable (var : Variable)
  | enum (value : EnumValue)

/-- What a bare word stands for: three words are literals of their own, all others enum values. -/
def Literal.ofWord (text : String) : Literal :=
  if text = "true" then .boolean true
  else if text = "false" then .boolean false
  else if text = "null" then .null
  else .enum ⟨⟨text⟩⟩

namespace Value

mutual

/-- The literal of a value. -/
def literal : Value → Literal
  | .string contents => .string contents
  | .int n => .int n.toInt
  | .single x => .float (String.ofList (Numeral.ofBinary x))
  | .double x => .float (String.ofList (Numeral.ofBinary x))
  | .boolean b => .boolean b
  | .null => .null
  | .list items => .list (literals items)
  | .map entries => .object (literalFields entries)
  | .object fields => .object (literalFields fields)
  | .variable var => .variable var
  | .enum value => .enum value
termination_by structural value => value

/-- The literals of the items of a list. -/
def literals : List Value → List Literal
  | [] => []
  | item :: rest => literal item :: literals rest
termination_by structural items => items

/-- The literals of the fields of an object. -/
def literalFields : List (Name × Value) → List (Name × Literal)
  | [] => []
  | (name, value) :: rest => (name, literal value) :: literalFields rest
termination_by structural fields => fields

end

end Value

/-- The operation without an empty name. -/
def Operation.dropEmptyName {V : Type} (operation : Operation V) : Operation V :=
  { operation with name := operation.name.filter fun name => !name.text.isEmpty }

/-- What the text of a definition says. -/
def Definition.normalForm : Definition Value → Definition Literal
  | .operation op => .operation (op.dropEmptyName.map Value.literal)
  | .fragment frag => .fragment (frag.map Value.literal)

/-- What the text of a document says. -/
def Document.normalForm (document : Document Value) : Document Literal :=
  ⟨document.definitions.map Definition.normalForm⟩

end GraphQLText

import GraphQLText.Tree.Document
import GraphQLText.Tree.Value

/-!
# Nodes

A node is any part of a document on its own.  What holds for every part of a document is stated
once for nodes.
-/

namespace GraphQLText

/-- A part of a document, of any kind. -/
inductive Node where
  | name (name : Name)
  | fragmentName (name : FragmentName)
  | enumValue (value : EnumValue)
  | variable (var : Variable)
  | value (value : Value)
  | objectValue (object : ObjectValue)
  | argument (argument : Argument Value)
  | arguments (arguments : Arguments Value)
  | directive (directive : Directive Value)
  | typeReference (type : TypeReference)
  | nonNullType (type : NonNullType)
  | variableDefinition (definition : VariableDefinition Value)
  | field (field : Field Value)
  | selection (selection : Selection Value)
  | selectionSet (set : SelectionSet Value)
  | fragmentSpread (spread : FragmentSpread Value)
  | inlineFragment (fragment : InlineFragment Value)
  | fragmentDefinition (definition : FragmentDefinition Value)
  | operationType (type : OperationType)
  | operation (operation : Operation Value)
  | definition (definition : Definition Value)
  | document (document : Document Value)
deriving BEq

end GraphQLText

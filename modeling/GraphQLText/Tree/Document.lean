import GraphQLText.Tree.Selection
import GraphQLText.Tree.TypeReference

/-!
# Documents

An executable document is a list of operations and fragment definitions.  As with selections, the
type `V` of the values is left open.
-/

namespace GraphQLText

/-- A variable of an operation, with its type and possibly a default value. -/
structure VariableDefinition (V : Type) where
  var : Variable
  type : TypeReference
  defaultValue : Option V := none
deriving BEq

def VariableDefinition.withDefault {V : Type} (definition : VariableDefinition V) (value : V) :
    VariableDefinition V :=
  { definition with defaultValue := some value }

/-- The kinds of operation. -/
inductive OperationType where
  | query
  | mutation
  | subscription
deriving DecidableEq

/-- An operation.  An operation whose name is the empty text is written like one without a name. -/
structure Operation (V : Type) where
  type : OperationType
  name : Option Name := none
  variableDefinitions : List (VariableDefinition V) := []
  directives : List (Directive V) := []
  selectionSet : SelectionSet V
deriving BEq

namespace Operation

variable {V : Type}

def withName (operation : Operation V) (name : Option Name) : Operation V :=
  { operation with name }

def addVariableDefinition (operation : Operation V) (definition : VariableDefinition V) :
    Operation V :=
  { operation with variableDefinitions := operation.variableDefinitions ++ [definition] }

def addDirective (operation : Operation V) (directive : Directive V) : Operation V :=
  { operation with directives := operation.directives ++ [directive] }

def addSelection (operation : Operation V) (selection : Selection V) : Operation V :=
  { operation with selectionSet := operation.selectionSet.add selection }

end Operation

/-- A named fragment on a type. -/
structure FragmentDefinition (V : Type) where
  name : FragmentName
  typeCondition : Name
  directives : List (Directive V) := []
  selectionSet : SelectionSet V
deriving BEq

def FragmentDefinition.addDirective {V : Type} (definition : FragmentDefinition V)
    (directive : Directive V) : FragmentDefinition V :=
  { definition with directives := definition.directives ++ [directive] }

/-- A definition at the top of a document. -/
inductive Definition (V : Type) where
  | operation (operation : Operation V)
  | fragment (definition : FragmentDefinition V)
deriving BEq

structure Document (V : Type) where
  definitions : List (Definition V) := []
deriving BEq

def Document.add {V : Type} (document : Document V) (definition : Definition V) : Document V :=
  ⟨document.definitions ++ [definition]⟩

end GraphQLText

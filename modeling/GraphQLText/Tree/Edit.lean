import GraphQLText.Tree.Node

/-!
# Edits

A node can be built step by step: an edit adds an item at the end of one of its lists or replaces
one of its single parts.  Each kind of node admits some edits and no others.
-/

namespace GraphQLText

/-- A single change of a node. -/
inductive Edit where
  | setAlias (aliasName : Option Name)
  | setName (name : Option Name)
  | setTypeCondition (typeCondition : Option Name)
  | setDefault (value : Value)
  | setArguments (arguments : Arguments Value)
  | setSelectionSet (set : SelectionSet Value)
  | addArgument (argument : Argument Value)
  | addField (name : Name) (value : Value)
  | addDirective (directive : Directive Value)
  | addSelection (selection : Selection Value)
  | addVariableDefinition (definition : VariableDefinition Value)
  | addDefinition (definition : Definition Value)

/-- The node after an edit, if it admits the edit. -/
def Node.edit? : Node → Edit → Option Node
  | .field f, .setAlias name? => some (.field (f.withAlias name?))
  | .field f, .setArguments as => some (.field (f.withArguments as))
  | .field f, .setSelectionSet set => some (.field (f.withSelectionSet set))
  | .field f, .addArgument a => some (.field (f.addArgument a))
  | .field f, .addDirective d => some (.field (f.addDirective d))
  | .field f, .addSelection s => some (.field (f.addSelection s))
  | .operation o, .setName name? => some (.operation (o.withName name?))
  | .operation o, .addVariableDefinition v => some (.operation (o.addVariableDefinition v))
  | .operation o, .addDirective d => some (.operation (o.addDirective d))
  | .operation o, .addSelection s => some (.operation (o.addSelection s))
  | .inlineFragment f, .setTypeCondition name? =>
    some (.inlineFragment (f.withTypeCondition name?))
  | .inlineFragment f, .addDirective d => some (.inlineFragment (f.addDirective d))
  | .fragmentSpread s, .addDirective d => some (.fragmentSpread (s.addDirective d))
  | .fragmentDefinition f, .addDirective d => some (.fragmentDefinition (f.addDirective d))
  | .directive d, .addArgument a => some (.directive (d.addArgument a))
  | .arguments as, .addArgument a => some (.arguments (as.add a))
  | .variableDefinition d, .setDefault v => some (.variableDefinition (d.withDefault v))
  | .objectValue o, .addField k v => some (.objectValue (o.addField k v))
  | .selectionSet set, .addSelection s => some (.selectionSet (set.add s))
  | .document doc, .addDefinition d => some (.document (doc.add d))
  | _, _ => none

/-- The node after a sequence of edits, if it admits each of them. -/
def Node.edits? (node : Node) (edits : List Edit) : Option Node :=
  edits.foldlM Node.edit? node

end GraphQLText

import GraphQLText.Printing.Document
import GraphQLText.Tree.Node

/-!
# The text of a node

Every part of a document can be printed on its own, into a text of its own or at the end of a given
one.
-/

namespace GraphQLText.Node

/-- A node is written as what it is. -/
def printer : Node → Printer
  | .name n => n.printer
  | .fragmentName n => n.printer
  | .enumValue v => v.printer
  | .variable v => v.printer
  | .value v => v.printer
  | .objectValue o => o.printer
  | .argument a => a.printer
  | .arguments as => as.printer
  | .directive d => d.printer
  | .typeReference t => t.printer
  | .nonNullType t => t.printer
  | .variableDefinition d => d.printer
  | .field f => f.printer
  | .selection s => s.printer
  | .selectionSet s => s.printer
  | .fragmentSpread s => s.printer
  | .inlineFragment f => f.printer
  | .fragmentDefinition d => d.printer
  | .operationType t => t.printer
  | .operation o => o.printer
  | .definition d => d.printer
  | .document d => d.printer

/-- The text of a node, or the first fault in it. -/
def print (node : Node) : Except Fault String :=
  node.printer.print

/-- Prints nodes one after the other at the end of a text, going on after faults, and tells after
each what came of it and which text was then there. -/
def printAll (text : String) : List Node → List (Except Fault Unit × String)
  | [] => []
  | node :: rest =>
    let step := node.printer.appendTo text
    step :: printAll step.2 rest

end GraphQLText.Node

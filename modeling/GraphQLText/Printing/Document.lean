import GraphQLText.Printing.Value
import GraphQLText.Tree.Document

/-!
# The text of selections and definitions

Segments that are empty are left out, together with the space before them: an argument list without
arguments, a missing alias, type condition, default value or name.  A field without selections has
no block, but an operation or a fragment always has one.
-/

namespace GraphQLText

open Printer

/-- An argument is written under its name. -/
def Argument.printer (argument : Argument Value) : Printer :=
  labelled argument.name.printer argument.value.printer

/-- Arguments are written between parentheses, unless there are none. -/
def Arguments.printer (arguments : Arguments Value) : Printer :=
  if arguments.isEmpty then pure ()
  else bracketed "(" ")" (arguments.items.map Argument.printer)

/-- A directive is written after an at sign. -/
def Directive.printer (directive : Directive Value) : Printer := do
  put "@"
  directive.name.printer
  directive.arguments.printer

/-- Directives are written one after the other, each after a space. -/
def Directive.printAll (directives : List (Directive Value)) : Printer :=
  ledBySpaces (directives.map Directive.printer)

/-- A spread is written after three dots. -/
def FragmentSpread.printer (spread : FragmentSpread Value) : Printer := do
  put "... "
  spread.name.printer
  Directive.printAll spread.directives

mutual

/-- A field is written under its alias, if it has one, and has a block only for selections. -/
def Field.printer : Field Value → Printer
  | ⟨aliasName, name, arguments, directives, set⟩ => do
    match aliasName with
    | some given => labelled given.printer name.printer
    | none => name.printer
    arguments.printer
    Directive.printAll directives
    if set.isEmpty then pure ()
    else do
      put " "
      SelectionSet.printer set
termination_by structural field => field

/-- An inline fragment is written after three dots, with its type condition if it has one. -/
def InlineFragment.printer : InlineFragment Value → Printer
  | ⟨typeCondition, directives, set⟩ => do
    put "..."
    match typeCondition with
    | some type => do
      put " on "
      type.printer
    | none => pure ()
    Directive.printAll directives
    put " "
    SelectionSet.printer set
termination_by structural fragment => fragment

def Selection.printer : Selection Value → Printer
  | .field f => Field.printer f
  | .spread s => s.printer
  | .inlineFragment f => InlineFragment.printer f
termination_by structural selection => selection

/-- A selection set is written as a block. -/
def SelectionSet.printer : SelectionSet Value → Printer
  | ⟨selections⟩ => block (SelectionSet.printers selections)
termination_by structural set => set

def SelectionSet.printers : List (Selection Value) → List Printer
  | [] => []
  | selection :: rest => Selection.printer selection :: SelectionSet.printers rest
termination_by structural selections => selections

end

mutual

/-- A list type is written between square brackets. -/
def TypeReference.printer : TypeReference → Printer
  | .named name => name.printer
  | .list items => bracketed "[" "]" (TypeReference.printers items)
  | .nonNull inner => NonNullType.printer inner
termination_by structural type => type

/-- A non-null type is written before an exclamation mark. -/
def NonNullType.printer : NonNullType → Printer
  | .named name => do
    name.printer
    put "!"
  | .list items => do
    bracketed "[" "]" (TypeReference.printers items)
    put "!"
termination_by structural type => type

def TypeReference.printers : List TypeReference → List Printer
  | [] => []
  | item :: rest => TypeReference.printer item :: TypeReference.printers rest
termination_by structural items => items

end

/-- A variable is defined by its type and its default value, if it has one. -/
def VariableDefinition.printer (definition : VariableDefinition Value) : Printer := do
  labelled definition.var.printer definition.type.printer
  match definition.defaultValue with
  | some value => do
    put " = "
    value.printer
  | none => pure ()

def OperationType.keyword : OperationType → String
  | query => "query"
  | mutation => "mutation"
  | subscription => "subscription"

def OperationType.printer (type : OperationType) : Printer :=
  put type.keyword

/-- The name under which an operation is written: the empty text is no name. -/
def Operation.writtenName? (operation : Operation Value) : Option Name :=
  operation.name.filter fun name => !name.text.isEmpty

/-- An operation is written with its keyword, even if it is a query without a name. -/
def Operation.printer (operation : Operation Value) : Printer := do
  operation.type.printer
  match operation.writtenName? with
  | some name => do
    put " "
    name.printer
  | none => pure ()
  if operation.variableDefinitions.isEmpty then pure ()
  else bracketed "(" ")" (operation.variableDefinitions.map VariableDefinition.printer)
  Directive.printAll operation.directives
  put " "
  operation.selectionSet.printer

/-- A fragment definition is written with its type condition. -/
def FragmentDefinition.printer (definition : FragmentDefinition Value) : Printer := do
  put "fragment "
  definition.name.printer
  put " on "
  definition.typeCondition.printer
  Directive.printAll definition.directives
  put " "
  definition.selectionSet.printer

def Definition.printer : Definition Value → Printer
  | .operation op => op.printer
  | .fragment frag => frag.printer

/-- A document is written on one line, and must not be empty. -/
def Document.printer (document : Document Value) : Printer :=
  if document.definitions.isEmpty then refuse .emptyDocument
  else spaced (document.definitions.map Definition.printer)

end GraphQLText

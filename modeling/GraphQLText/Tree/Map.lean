import GraphQLText.Tree.Document

/-!
# Changing the values of a document

A function between two types of values carries over to everything that holds values.  Names, types
and the order of all parts stay as they are.
-/

namespace GraphQLText

variable {V W : Type}

/-- Changes the value of an argument. -/
def Argument.map (g : V → W) (argument : Argument V) : Argument W :=
  ⟨argument.name, g argument.value⟩

def Arguments.map (g : V → W) (arguments : Arguments V) : Arguments W :=
  ⟨arguments.items.map (Argument.map g)⟩

def Directive.map (g : V → W) (directive : Directive V) : Directive W :=
  ⟨directive.name, directive.arguments.map g⟩

def FragmentSpread.map (g : V → W) (spread : FragmentSpread V) : FragmentSpread W :=
  ⟨spread.name, spread.directives.map (Directive.map g)⟩

mutual

def Field.map (g : V → W) : Field V → Field W
  | ⟨aliasName, name, arguments, directives, set⟩ =>
    ⟨aliasName, name, arguments.map g, directives.map (Directive.map g), SelectionSet.map g set⟩
termination_by structural field => field

def InlineFragment.map (g : V → W) : InlineFragment V → InlineFragment W
  | ⟨typeCondition, directives, set⟩ =>
    ⟨typeCondition, directives.map (Directive.map g), SelectionSet.map g set⟩
termination_by structural fragment => fragment

def Selection.map (g : V → W) : Selection V → Selection W
  | .field f => .field (Field.map g f)
  | .spread s => .spread (s.map g)
  | .inlineFragment f => .inlineFragment (InlineFragment.map g f)
termination_by structural selection => selection

def SelectionSet.map (g : V → W) : SelectionSet V → SelectionSet W
  | ⟨selections⟩ => ⟨SelectionSet.mapList g selections⟩
termination_by structural set => set

def SelectionSet.mapList (g : V → W) : List (Selection V) → List (Selection W)
  | [] => []
  | selection :: rest => Selection.map g selection :: SelectionSet.mapList g rest
termination_by structural selections => selections

end

/-- Changes the default value of a variable. -/
def VariableDefinition.map (g : V → W) (definition : VariableDefinition V) :
    VariableDefinition W :=
  ⟨definition.var, definition.type, definition.defaultValue.map g⟩

def Operation.map (g : V → W) (operation : Operation V) : Operation W :=
  ⟨operation.type, operation.name, operation.variableDefinitions.map (VariableDefinition.map g),
    operation.directives.map (Directive.map g), operation.selectionSet.map g⟩

def FragmentDefinition.map (g : V → W) (definition : FragmentDefinition V) :
    FragmentDefinition W :=
  ⟨definition.name, definition.typeCondition, definition.directives.map (Directive.map g),
    definition.selectionSet.map g⟩

def Definition.map (g : V → W) : Definition V → Definition W
  | .operation op => .operation (op.map g)
  | .fragment frag => .fragment (frag.map g)

/-- Changes the values in a document. -/
def Document.map (g : V → W) (document : Document V) : Document W :=
  ⟨document.definitions.map (Definition.map g)⟩

end GraphQLText

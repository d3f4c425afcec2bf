import GraphQLText.Proofs.Lexical.NameSyntax
import GraphQLText.Tree.Node

/-!
# Checked leaves

Some leaves of a tree can have a fault: names, fragment names, enum values and floating-point
numbers.  They are listed here in the order in which they are written.  Strings, integers, truth
values and the null value have no fault, and are not listed.
-/

namespace GraphQLText

instance (cs : List Char) : Decidable (Token.IsName cs) :=
  match cs with
  | [] => instDecidableFalse
  | c :: cs =>
    -- The characters are tested one by one; a search over all of `Char` would apply as well.
    @instDecidableAnd (Token.isNameStart c = true) (∀ d ∈ cs, Token.isNameContinue d = true)
      inferInstance (List.decidableBAll _ cs)

/-- A leaf that is checked before it is written. -/
inductive Leaf where
  | name (name : Name)
  | fragmentName (fragment : FragmentName)
  | enumValue (value : EnumValue)
  | number {f : BinaryFormat} (x : Binary f)

/-- The fault of a leaf, if it has one.  Whether a text is a name at all is asked before whether it
is reserved. -/
def Leaf.fault? : Leaf → Option Fault
  | name n =>
    if Token.IsName n.text.toList then none else some (.invalidName n.text)
  | fragmentName n =>
    if ¬ Token.IsName n.name.text.toList then some (.invalidName n.name.text)
    else if n.name.text = "on" then some .reservedFragmentName
    else none
  | enumValue v =>
    if ¬ Token.IsName v.name.text.toList then some (.invalidName v.name.text)
    else if v.name.text ∈ ["true", "false", "null"] then
      some (.reservedEnumValue v.name.text)
    else none
  | number x =>
    if x.isFinite then none
    else if x.isNaN then some (.unsupportedNumber (.nonFinite .nan))
    else if x.isNegative then some (.unsupportedNumber (.nonFinite .negativeInfinity))
    else some (.unsupportedNumber (.nonFinite .infinity))

/-- A leaf without a fault. -/
def Leaf.IsAcceptable (leaf : Leaf) : Prop :=
  leaf.fault? = none

instance (leaf : Leaf) : Decidable leaf.IsAcceptable :=
  inferInstanceAs (Decidable (leaf.fault? = none))

mutual

/-- The checked leaves of a value. -/
def Value.leaves : Value → List Leaf
  | .single x => [.number x]
  | .double x => [.number x]
  | .list items => Value.leavesOfItems items
  | .map entries => Value.leavesOfFields entries
  | .object fields => Value.leavesOfFields fields
  | .variable var => [.name var.name]
  | .enum value => [.enumValue value]
  | .string _ => []
  | .int _ => []
  | .boolean _ => []
  | .null => []
termination_by structural value => value

def Value.leavesOfItems : List Value → List Leaf
  | [] => []
  | item :: rest => item.leaves ++ Value.leavesOfItems rest
termination_by structural items => items

/-- The checked leaves of the fields of an object, each key before its value. -/
def Value.leavesOfFields : List (Name × Value) → List Leaf
  | [] => []
  | (name, value) :: rest => .name name :: (value.leaves ++ Value.leavesOfFields rest)
termination_by structural fields => fields

end

/-- The name of an argument comes before its value. -/
def Argument.leaves (argument : Argument Value) : List Leaf :=
  .name argument.name :: argument.value.leaves

def Arguments.leaves (arguments : Arguments Value) : List Leaf :=
  arguments.items.flatMap Argument.leaves

def Directive.leaves (directive : Directive Value) : List Leaf :=
  .name directive.name :: directive.arguments.leaves

def Directive.leavesOfAll (directives : List (Directive Value)) : List Leaf :=
  directives.flatMap Directive.leaves

def FragmentSpread.leaves (spread : FragmentSpread Value) : List Leaf :=
  .fragmentName spread.name :: Directive.leavesOfAll spread.directives

def Leaf.ofName? (name? : Option Name) : List Leaf :=
  name?.toList.map Leaf.name

mutual

/-- The checked leaves of a field: its alias, its name, its arguments, its directives and its
selections. -/
def Field.leaves : Field Value → List Leaf
  | ⟨aliasName, name, arguments, directives, set⟩ =>
    Leaf.ofName? aliasName ++ .name name :: (arguments.leaves ++
      (Directive.leavesOfAll directives ++ SelectionSet.leaves set))
termination_by structural field => field

/-- The checked leaves of an inline fragment: its type condition, its directives and its
selections. -/
def InlineFragment.leaves : InlineFragment Value → List Leaf
  | ⟨typeCondition, directives, set⟩ =>
    Leaf.ofName? typeCondition ++
      (Directive.leavesOfAll directives ++ SelectionSet.leaves set)
termination_by structural fragment => fragment

def Selection.leaves : Selection Value → List Leaf
  | .field f => Field.leaves f
  | .spread s => s.leaves
  | .inlineFragment f => InlineFragment.leaves f
termination_by structural selection => selection

def SelectionSet.leaves : SelectionSet Value → List Leaf
  | ⟨selections⟩ => SelectionSet.leavesOfAll selections
termination_by structural set => set

def SelectionSet.leavesOfAll : List (Selection Value) → List Leaf
  | [] => []
  | selection :: rest => Selection.leaves selection ++ SelectionSet.leavesOfAll rest
termination_by structural selections => selections

end

mutual

def TypeReference.leaves : TypeReference → List Leaf
  | .named name => [.name name]
  | .list items => TypeReference.leavesOfAll items
  | .nonNull inner => NonNullType.leaves inner
termination_by structural type => type

def NonNullType.leaves : NonNullType → List Leaf
  | .named name => [.name name]
  | .list items => TypeReference.leavesOfAll items
termination_by structural type => type

def TypeReference.leavesOfAll : List TypeReference → List Leaf
  | [] => []
  | item :: rest => item.leaves ++ TypeReference.leavesOfAll rest
termination_by structural items => items

end

/-- The checked leaves of the definition of a variable: the variable, its type and its default
value. -/
def VariableDefinition.leaves (definition : VariableDefinition Value) : List Leaf :=
  .name definition.var.name :: (definition.type.leaves ++
    definition.defaultValue.toList.flatMap Value.leaves)

/-- An operation has a name only if that is not the empty text. -/
def Operation.nameLeaves (operation : Operation Value) : List Leaf :=
  match operation.name with
  | some name => if name.text = "" then [] else [.name name]
  | none => []

/-- The checked leaves of an operation: its name, its variables, its directives and its
selections. -/
def Operation.leaves (operation : Operation Value) : List Leaf :=
  operation.nameLeaves ++
    (operation.variableDefinitions.flatMap VariableDefinition.leaves ++
      (Directive.leavesOfAll operation.directives ++ operation.selectionSet.leaves))

/-- The checked leaves of a fragment definition: its name, its type condition, its directives and
its selections. -/
def FragmentDefinition.leaves (definition : FragmentDefinition Value) : List Leaf :=
  .fragmentName definition.name :: .name definition.typeCondition ::
    (Directive.leavesOfAll definition.directives ++ definition.selectionSet.leaves)

def Definition.leaves : Definition Value → List Leaf
  | .operation op => op.leaves
  | .fragment frag => frag.leaves

def Document.leaves (document : Document Value) : List Leaf :=
  document.definitions.flatMap Definition.leaves

/-- The checked leaves of a node, in the order in which they are written. -/
def Node.leaves : Node → List Leaf
  | .name n => [.name n]
  | .fragmentName n => [.fragmentName n]
  | .enumValue v => [.enumValue v]
  | .variable v => [.name v.name]
  | .value v => v.leaves
  | .objectValue o => Value.leavesOfFields o.fields
  | .argument a => a.leaves
  | .arguments as => as.leaves
  | .directive d => d.leaves
  | .typeReference t => t.leaves
  | .nonNullType t => t.leaves
  | .variableDefinition d => d.leaves
  | .field f => f.leaves
  | .selection s => s.leaves
  | .selectionSet s => s.leaves
  | .fragmentSpread s => s.leaves
  | .inlineFragment f => f.leaves
  | .fragmentDefinition d => d.leaves
  | .operationType _ => []
  | .operation o => o.leaves
  | .definition d => d.leaves
  | .document d => d.leaves

/-- A document without definitions is the one node without a text whose leaves are all
acceptable. -/
def Node.IsEmptyDocument (node : Node) : Prop :=
  node = .document ⟨[]⟩

end GraphQLText

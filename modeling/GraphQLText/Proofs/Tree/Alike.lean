import GraphQLText.Proofs.Tree.Leaf
import Mathlib.Data.List.Forall2
import Mathlib.Data.Option.Basic

/-!
# Trees of one shape

Two trees are alike if they differ at most in their checked leaves and in the contents of their
strings.  How these may differ is left open: `R` relates the checked leaves of the one to those of
the other, and `S` the contents of the strings.  An operation name that is the empty text is not
checked, so it stays.
-/

namespace GraphQLText

variable (R : Leaf → Leaf → Prop) (S : String → String → Prop)

/-- Names are related as leaves. -/
def Name.Alike (a b : Name) : Prop :=
  R (.name a) (.name b)

mutual

/-- Values of one shape. -/
inductive Value.Alike : Value → Value → Prop
  | string {s t : String} : S s t → Value.Alike (.string s) (.string t)
  | int (n : Int64) : Value.Alike (.int n) (.int n)
  | single {x y : Binary32} : R (.number x) (.number y) → Value.Alike (.single x) (.single y)
  | double {x y : Binary64} : R (.number x) (.number y) → Value.Alike (.double x) (.double y)
  | boolean (b : Bool) : Value.Alike (.boolean b) (.boolean b)
  | null : Value.Alike .null .null
  | list {xs ys : List Value} : Value.AlikeItems xs ys → Value.Alike (.list xs) (.list ys)
  | map {xs ys : List (Name × Value)} :
      Value.AlikeFields xs ys → Value.Alike (.map xs) (.map ys)
  | object {xs ys : List (Name × Value)} :
      Value.AlikeFields xs ys → Value.Alike (.object xs) (.object ys)
  | variable {x y : Variable} :
      x.name.Alike R y.name → Value.Alike (.variable x) (.variable y)
  | enum {x y : EnumValue} : R (.enumValue x) (.enumValue y) → Value.Alike (.enum x) (.enum y)

inductive Value.AlikeItems : List Value → List Value → Prop
  | nil : Value.AlikeItems [] []
  | cons {x y : Value} {xs ys : List Value} :
      Value.Alike x y → Value.AlikeItems xs ys → Value.AlikeItems (x :: xs) (y :: ys)

inductive Value.AlikeFields : List (Name × Value) → List (Name × Value) → Prop
  | nil : Value.AlikeFields [] []
  | cons {k l : Name} {x y : Value} {xs ys : List (Name × Value)} :
      k.Alike R l → Value.Alike x y → Value.AlikeFields xs ys →
        Value.AlikeFields ((k, x) :: xs) ((l, y) :: ys)

end

structure Argument.Alike (a b : Argument Value) : Prop where
  name : a.name.Alike R b.name
  value : a.value.Alike R S b.value

def Arguments.Alike (as bs : Arguments Value) : Prop :=
  List.Forall₂ (Argument.Alike R S) as.items bs.items

structure Directive.Alike (a b : Directive Value) : Prop where
  name : a.name.Alike R b.name
  arguments : a.arguments.Alike R S b.arguments

def Directive.AlikeAll (as bs : List (Directive Value)) : Prop :=
  List.Forall₂ (Directive.Alike R S) as bs

structure FragmentSpread.Alike (a b : FragmentSpread Value) : Prop where
  name : R (.fragmentName a.name) (.fragmentName b.name)
  directives : Directive.AlikeAll R S a.directives b.directives

/-- Names that are both there or both missing. -/
def Name.AlikeOption (a? b? : Option Name) : Prop :=
  Option.Rel (Name.Alike R) a? b?

mutual

inductive Field.Alike : Field Value → Field Value → Prop
  | mk {alias₁ alias₂ : Option Name} {name₁ name₂ : Name} {arguments₁ arguments₂ : Arguments Value}
      {directives₁ directives₂ : List (Directive Value)} {set₁ set₂ : SelectionSet Value} :
      Name.AlikeOption R alias₁ alias₂ → name₁.Alike R name₂ →
        arguments₁.Alike R S arguments₂ → Directive.AlikeAll R S directives₁ directives₂ →
        SelectionSet.Alike set₁ set₂ →
        Field.Alike ⟨alias₁, name₁, arguments₁, directives₁, set₁⟩
          ⟨alias₂, name₂, arguments₂, directives₂, set₂⟩

inductive InlineFragment.Alike : InlineFragment Value → InlineFragment Value → Prop
  | mk {condition₁ condition₂ : Option Name} {directives₁ directives₂ : List (Directive Value)}
      {set₁ set₂ : SelectionSet Value} :
      Name.AlikeOption R condition₁ condition₂ →
        Directive.AlikeAll R S directives₁ directives₂ → SelectionSet.Alike set₁ set₂ →
        InlineFragment.Alike ⟨condition₁, directives₁, set₁⟩ ⟨condition₂, directives₂, set₂⟩

inductive Selection.Alike : Selection Value → Selection Value → Prop
  | field {f g : Field Value} : Field.Alike f g → Selection.Alike (.field f) (.field g)
  | spread {s t : FragmentSpread Value} :
      s.Alike R S t → Selection.Alike (.spread s) (.spread t)
  | inlineFragment {f g : InlineFragment Value} :
      InlineFragment.Alike f g → Selection.Alike (.inlineFragment f) (.inlineFragment g)

inductive SelectionSet.Alike : SelectionSet Value → SelectionSet Value → Prop
  | mk {xs ys : List (Selection Value)} :
      SelectionSet.AlikeAll xs ys → SelectionSet.Alike ⟨xs⟩ ⟨ys⟩

inductive SelectionSet.AlikeAll : List (Selection Value) → List (Selection Value) → Prop
  | nil : SelectionSet.AlikeAll [] []
  | cons {x y : Selection Value} {xs ys : List (Selection Value)} :
      Selection.Alike x y → SelectionSet.AlikeAll xs ys →
        SelectionSet.AlikeAll (x :: xs) (y :: ys)

end

mutual

inductive TypeReference.Alike : TypeReference → TypeReference → Prop
  | named {a b : Name} : a.Alike R b → TypeReference.Alike (.named a) (.named b)
  | list {xs ys : List TypeReference} :
      TypeReference.AlikeAll xs ys → TypeReference.Alike (.list xs) (.list ys)
  | nonNull {x y : NonNullType} :
      NonNullType.Alike x y → TypeReference.Alike (.nonNull x) (.nonNull y)

inductive NonNullType.Alike : NonNullType → NonNullType → Prop
  | named {a b : Name} : a.Alike R b → NonNullType.Alike (.named a) (.named b)
  | list {xs ys : List TypeReference} :
      TypeReference.AlikeAll xs ys → NonNullType.Alike (.list xs) (.list ys)

inductive TypeReference.AlikeAll : List TypeReference → List TypeReference → Prop
  | nil : TypeReference.AlikeAll [] []
  | cons {x y : TypeReference} {xs ys : List TypeReference} :
      TypeReference.Alike x y → TypeReference.AlikeAll xs ys →
        TypeReference.AlikeAll (x :: xs) (y :: ys)

end

structure VariableDefinition.Alike (a b : VariableDefinition Value) : Prop where
  var : a.var.name.Alike R b.var.name
  type : a.type.Alike R b.type
  defaultValue : Option.Rel (Value.Alike R S) a.defaultValue b.defaultValue

/-- Names of operations.  The empty one stays, and no other becomes empty. -/
inductive Operation.NameAlike : Option Name → Option Name → Prop
  | none : Operation.NameAlike none none
  | empty {name : Name} : name.text = "" → Operation.NameAlike (some name) (some name)
  | some {a b : Name} :
      a.text ≠ "" → b.text ≠ "" → a.Alike R b → Operation.NameAlike (some a) (some b)

structure Operation.Alike (a b : Operation Value) : Prop where
  type : a.type = b.type
  name : Operation.NameAlike R a.name b.name
  variableDefinitions :
    List.Forall₂ (VariableDefinition.Alike R S) a.variableDefinitions b.variableDefinitions
  directives : Directive.AlikeAll R S a.directives b.directives
  selectionSet : a.selectionSet.Alike R S b.selectionSet

structure FragmentDefinition.Alike (a b : FragmentDefinition Value) : Prop where
  name : R (.fragmentName a.name) (.fragmentName b.name)
  typeCondition : a.typeCondition.Alike R b.typeCondition
  directives : Directive.AlikeAll R S a.directives b.directives
  selectionSet : a.selectionSet.Alike R S b.selectionSet

inductive Definition.Alike : Definition Value → Definition Value → Prop
  | operation {a b : Operation Value} :
      a.Alike R S b → Definition.Alike (.operation a) (.operation b)
  | fragment {a b : FragmentDefinition Value} :
      a.Alike R S b → Definition.Alike (.fragment a) (.fragment b)

def Document.Alike (a b : Document Value) : Prop :=
  List.Forall₂ (Definition.Alike R S) a.definitions b.definitions

/-- Nodes of one kind and one shape. -/
inductive Node.Alike : Node → Node → Prop
  | name {a b : Name} : a.Alike R b → Node.Alike (.name a) (.name b)
  | fragmentName {a b : FragmentName} :
      R (.fragmentName a) (.fragmentName b) → Node.Alike (.fragmentName a) (.fragmentName b)
  | enumValue {a b : EnumValue} :
      R (.enumValue a) (.enumValue b) → Node.Alike (.enumValue a) (.enumValue b)
  | variable {a b : Variable} :
      a.name.Alike R b.name → Node.Alike (.variable a) (.variable b)
  | value {a b : Value} : a.Alike R S b → Node.Alike (.value a) (.value b)
  | objectValue {a b : ObjectValue} :
      Value.AlikeFields R S a.fields b.fields → Node.Alike (.objectValue a) (.objectValue b)
  | argument {a b : Argument Value} : a.Alike R S b → Node.Alike (.argument a) (.argument b)
  | arguments {a b : Arguments Value} :
      a.Alike R S b → Node.Alike (.arguments a) (.arguments b)
  | directive {a b : Directive Value} :
      a.Alike R S b → Node.Alike (.directive a) (.directive b)
  | typeReference {a b : TypeReference} :
      a.Alike R b → Node.Alike (.typeReference a) (.typeReference b)
  | nonNullType {a b : NonNullType} :
      a.Alike R b → Node.Alike (.nonNullType a) (.nonNullType b)
  | variableDefinition {a b : VariableDefinition Value} :
      a.Alike R S b → Node.Alike (.variableDefinition a) (.variableDefinition b)
  | field {a b : Field Value} : a.Alike R S b → Node.Alike (.field a) (.field b)
  | selection {a b : Selection Value} :
      a.Alike R S b → Node.Alike (.selection a) (.selection b)
  | selectionSet {a b : SelectionSet Value} :
      a.Alike R S b → Node.Alike (.selectionSet a) (.selectionSet b)
  | fragmentSpread {a b : FragmentSpread Value} :
      a.Alike R S b → Node.Alike (.fragmentSpread a) (.fragmentSpread b)
  | inlineFragment {a b : InlineFragment Value} :
      a.Alike R S b → Node.Alike (.inlineFragment a) (.inlineFragment b)
  | fragmentDefinition {a b : FragmentDefinition Value} :
      a.Alike R S b → Node.Alike (.fragmentDefinition a) (.fragmentDefinition b)
  | operationType (type : OperationType) :
      Node.Alike (.operationType type) (.operationType type)
  | operation {a b : Operation Value} :
      a.Alike R S b → Node.Alike (.operation a) (.operation b)
  | definition {a b : Definition Value} :
      a.Alike R S b → Node.Alike (.definition a) (.definition b)
  | document {a b : Document Value} :
      a.Alike R S b → Node.Alike (.document a) (.document b)

end GraphQLText

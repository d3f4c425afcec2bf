import GraphQLText.Lexical.Name

/-!
# Selections

The parts of an operation that say what is asked for: fields with their arguments and directives,
spreads of named fragments and inline fragments, nested by selection sets.  All of them are generic
in the type `V` of the values they carry, as nothing here depends on what a value is.
-/

namespace GraphQLText

/-- A named argument. -/
structure Argument (V : Type) where
  name : Name
  value : V
deriving BEq

/-- The arguments of a field or of a directive, in order and with repeats. -/
structure Arguments (V : Type) where
  items : List (Argument V) := []
deriving BEq

namespace Arguments

variable {V : Type}

/-- The arguments with the given names and values. -/
def ofPairs (pairs : List (Name × V)) : Arguments V :=
  ⟨pairs.map fun (name, value) => ⟨name, value⟩⟩

def length (arguments : Arguments V) : Nat :=
  arguments.items.length

def isEmpty (arguments : Arguments V) : Bool :=
  arguments.items.isEmpty

def add (arguments : Arguments V) (argument : Argument V) : Arguments V :=
  ⟨arguments.items ++ [argument]⟩

end Arguments

/-- A directive with its arguments. -/
structure Directive (V : Type) where
  name : Name
  arguments : Arguments V := {}
deriving BEq

def Directive.addArgument {V : Type} (directive : Directive V) (argument : Argument V) :
    Directive V :=
  { directive with arguments := directive.arguments.add argument }

/-- A spread of a named fragment. -/
structure FragmentSpread (V : Type) where
  name : FragmentName
  directives : List (Directive V) := []
deriving BEq

def FragmentSpread.addDirective {V : Type} (spread : FragmentSpread V) (directive : Directive V) :
    FragmentSpread V :=
  { spread with directives := spread.directives ++ [directive] }

mutual

/-- A field, under its own name or under an alias. -/
structure Field (V : Type) where
  aliasName : Option Name := none
  name : Name
  arguments : Arguments V := {}
  directives : List (Directive V) := []
  selectionSet : SelectionSet V

/-- An inline fragment, for one type or for any. -/
structure InlineFragment (V : Type) where
  typeCondition : Option Name := none
  directives : List (Directive V) := []
  selectionSet : SelectionSet V

/-- One of the things that a selection set selects. -/
inductive Selection (V : Type) where
  | field (field : Field V)
  | spread (spread : FragmentSpread V)
  | inlineFragment (fragment : InlineFragment V)

/-- The selections made on one object. -/
structure SelectionSet (V : Type) where
  selections : List (Selection V)

end

section

variable {V : Type}

namespace SelectionSet

def isEmpty (set : SelectionSet V) : Bool :=
  set.selections.isEmpty

def add (set : SelectionSet V) (selection : Selection V) : SelectionSet V :=
  ⟨set.selections ++ [selection]⟩

end SelectionSet

namespace Field

def withAlias (field : Field V) (aliasName : Option Name) : Field V :=
  { field with aliasName }

def addArgument (field : Field V) (argument : Argument V) : Field V :=
  { field with arguments := field.arguments.add argument }

def withArguments (field : Field V) (arguments : Arguments V) : Field V :=
  { field with arguments }

def addDirective (field : Field V) (directive : Directive V) : Field V :=
  { field with directives := field.directives ++ [directive] }

def addSelection (field : Field V) (selection : Selection V) : Field V :=
  { field with selectionSet := field.selectionSet.add selection }

def withSelectionSet (field : Field V) (selectionSet : SelectionSet V) : Field V :=
  { field with selectionSet }

end Field

namespace InlineFragment

def withTypeCondition (fragment : InlineFragment V) (typeCondition : Option Name) :
    InlineFragment V :=
  { fragment with typeCondition }

def addDirective (fragment : InlineFragment V) (directive : Directive V) : InlineFragment V :=
  { fragment with directives := fragment.directives ++ [directive] }

end InlineFragment

end

section

variable {V : Type} [BEq V]

mutual

def Field.beq : Field V → Field V → Bool
  | ⟨aliasName₁, name₁, arguments₁, directives₁, set₁⟩,
    ⟨aliasName₂, name₂, arguments₂, directives₂, set₂⟩ =>
    aliasName₁ == aliasName₂ && name₁ == name₂ && arguments₁ == arguments₂ &&
      directives₁ == directives₂ && set₁.beq set₂
termination_by structural field => field

def InlineFragment.beq : InlineFragment V → InlineFragment V → Bool
  | ⟨condition₁, directives₁, set₁⟩, ⟨condition₂, directives₂, set₂⟩ =>
    condition₁ == condition₂ && directives₁ == directives₂ && set₁.beq set₂
termination_by structural fragment => fragment

def Selection.beq : Selection V → Selection V → Bool
  | .field a, .field b => a.beq b
  | .spread a, .spread b => a == b
  | .inlineFragment a, .inlineFragment b => a.beq b
  | _, _ => false
termination_by structural selection => selection

def SelectionSet.beq : SelectionSet V → SelectionSet V → Bool
  | ⟨xs⟩, ⟨ys⟩ => SelectionSet.beqList xs ys
termination_by structural set => set

/-- Equality of lists of selections, item by item. -/
def SelectionSet.beqList : List (Selection V) → List (Selection V) → Bool
  | [], [] => true
  | x :: xs, y :: ys => x.beq y && SelectionSet.beqList xs ys
  | _, _ => false
termination_by structural selections => selections

end

instance : BEq (Field V) := ⟨Field.beq⟩
instance : BEq (InlineFragment V) := ⟨InlineFragment.beq⟩
instance : BEq (Selection V) := ⟨Selection.beq⟩
instance : BEq (SelectionSet V) := ⟨SelectionSet.beq⟩

end

end GraphQLText

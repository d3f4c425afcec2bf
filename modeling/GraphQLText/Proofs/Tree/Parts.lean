import GraphQLText.Tree.Node

/-!
# The values in a node

The values inside of a value, at any depth, and those that a node holds in its arguments and
defaults.  Inductions over values and over selections go from what is right inside of a list, a map,
an object or a selection set to the whole.
-/

namespace GraphQLText

namespace Value

mutual

/-- A value and all values inside of it. -/
def parts : Value → List Value
  | .string contents => [.string contents]
  | .int n => [.int n]
  | .single x => [.single x]
  | .double x => [.double x]
  | .boolean b => [.boolean b]
  | .null => [.null]
  | .list items => .list items :: partsOfItems items
  | .map entries => .map entries :: partsOfFields entries
  | .object fields => .object fields :: partsOfFields fields
  | .variable var => [.variable var]
  | .enum value => [.enum value]
termination_by structural value => value

def partsOfItems : List Value → List Value
  | [] => []
  | item :: rest => item.parts ++ partsOfItems rest
termination_by structural items => items

def partsOfFields : List (Name × Value) → List Value
  | [] => []
  | (_, value) :: rest => value.parts ++ partsOfFields rest
termination_by structural fields => fields

end

theorem mem_parts_self (value : Value) : value ∈ value.parts := by
  cases value <;> simp [parts]

section

variable {p : Value → Prop}

theorem forall_mem_partsOfItems {items : List Value} :
    (∀ part ∈ partsOfItems items, p part) ↔ ∀ item ∈ items, ∀ part ∈ item.parts, p part := by
  induction items with
  | nil => simp [partsOfItems]
  | cons item rest ih => rw [partsOfItems, List.forall_mem_append, ih, List.forall_mem_cons]

theorem forall_mem_partsOfFields {fields : List (Name × Value)} :
    (∀ part ∈ partsOfFields fields, p part) ↔
      ∀ field ∈ fields, ∀ part ∈ field.2.parts, p part := by
  induction fields with
  | nil => simp [partsOfFields]
  | cons field rest ih => rw [partsOfFields, List.forall_mem_append, ih, List.forall_mem_cons]

theorem forall_mem_parts_list {items : List Value} :
    (∀ part ∈ (list items).parts, p part) ↔
      p (list items) ∧ ∀ item ∈ items, ∀ part ∈ item.parts, p part := by
  rw [parts, List.forall_mem_cons, forall_mem_partsOfItems]

theorem forall_mem_parts_map {entries : List (Name × Value)} :
    (∀ part ∈ (map entries).parts, p part) ↔
      p (map entries) ∧ ∀ entry ∈ entries, ∀ part ∈ entry.2.parts, p part := by
  rw [parts, List.forall_mem_cons, forall_mem_partsOfFields]

theorem forall_mem_parts_object {fields : List (Name × Value)} :
    (∀ part ∈ (object fields).parts, p part) ↔
      p (object fields) ∧ ∀ field ∈ fields, ∀ part ∈ field.2.parts, p part := by
  rw [parts, List.forall_mem_cons, forall_mem_partsOfFields]

end

/-- Whether a value is a floating-point number that is not a number. -/
def isNaN : Value → Bool
  | .single x => x.isNaN
  | .double x => x.isNaN
  | _ => false

/-- Whether a value is a floating-point number equal to zero. -/
def isZero : Value → Bool
  | .single x => x.isZero
  | .double x => x.isZero
  | _ => false

/-- Whether a value is a map with entries that can change places. -/
def isReorderable : Value → Bool
  | .map entries => 2 ≤ entries.length
  | _ => false

/-- Whether a value is neither a floating-point number nor holds other values. -/
def isAtom : Value → Bool
  | .string _ | .int _ | .boolean _ | .null | .variable _ | .enum _ => true
  | _ => false

/-- What holds of atoms and of numbers, and of a list, a map or an object if it holds of all values
right inside of it, holds of every value. -/
@[elab_as_elim]
theorem induction {motive : Value → Prop} (atom : ∀ value, value.isAtom = true → motive value)
    (single : ∀ x, motive (.single x)) (double : ∀ x, motive (.double x))
    (list : ∀ items, (∀ item ∈ items, motive item) → motive (.list items))
    (map : ∀ entries, (∀ entry ∈ entries, motive entry.2) → motive (.map entries))
    (object : ∀ fields, (∀ field ∈ fields, motive field.2) → motive (.object fields))
    (value : Value) : motive value :=
  value.rec (motive_1 := motive) (motive_2 := fun items => ∀ item ∈ items, motive item)
    (motive_3 := fun fields => ∀ field ∈ fields, motive field.2)
    (motive_4 := fun field => motive field.2)
    (fun _ => atom _ rfl) (fun _ => atom _ rfl) single double (fun _ => atom _ rfl) (atom _ rfl)
    list map object (fun _ => atom _ rfl) (fun _ => atom _ rfl)
    (List.forall_mem_nil _) (fun _ _ hitem hrest => List.forall_mem_cons.mpr ⟨hitem, hrest⟩)
    (List.forall_mem_nil _) (fun _ _ hfield hrest => List.forall_mem_cons.mpr ⟨hfield, hrest⟩)
    (fun _ _ hvalue => hvalue)

/-- An atom is its only part, and is no number. -/
theorem parts_of_isAtom {value : Value} (h : value.isAtom = true) :
    value.parts = [value] ∧ value.isNaN = false ∧ value.isZero = false := by
  cases value with
  | single | double | list | map | object => cases h
  | _ => exact ⟨rfl, rfl, rfl⟩

end Value

/-! ### The values of each node -/

def Arguments.values (arguments : Arguments Value) : List Value :=
  arguments.items.map Argument.value

def Directive.values (directive : Directive Value) : List Value :=
  directive.arguments.values

def FragmentSpread.values (spread : FragmentSpread Value) : List Value :=
  spread.directives.flatMap Directive.values

mutual

/-- The values of a field: those of its arguments, its directives and its selections. -/
def Field.values : Field Value → List Value
  | ⟨_, _, arguments, directives, set⟩ =>
    arguments.values ++ (directives.flatMap Directive.values ++ SelectionSet.values set)
termination_by structural field => field

def InlineFragment.values : InlineFragment Value → List Value
  | ⟨_, directives, set⟩ => directives.flatMap Directive.values ++ SelectionSet.values set
termination_by structural fragment => fragment

def Selection.values : Selection Value → List Value
  | .field f => Field.values f
  | .spread s => s.values
  | .inlineFragment f => InlineFragment.values f
termination_by structural selection => selection

def SelectionSet.values : SelectionSet Value → List Value
  | ⟨selections⟩ => SelectionSet.valuesOfAll selections
termination_by structural set => set

def SelectionSet.valuesOfAll : List (Selection Value) → List Value
  | [] => []
  | selection :: rest => Selection.values selection ++ SelectionSet.valuesOfAll rest
termination_by structural selections => selections

end

def VariableDefinition.values (definition : VariableDefinition Value) : List Value :=
  definition.defaultValue.toList

/-- The values of an operation: the defaults of its variables and the values of its directives and
its selections. -/
def Operation.values (operation : Operation Value) : List Value :=
  operation.variableDefinitions.flatMap VariableDefinition.values ++
    (operation.directives.flatMap Directive.values ++ operation.selectionSet.values)

def FragmentDefinition.values (definition : FragmentDefinition Value) : List Value :=
  definition.directives.flatMap Directive.values ++ definition.selectionSet.values

def Definition.values : Definition Value → List Value
  | .operation op => op.values
  | .fragment frag => frag.values

def Document.values (document : Document Value) : List Value :=
  document.definitions.flatMap Definition.values

/-- The values that a node holds, but for the values inside of these. -/
def Node.values : Node → List Value
  | .name _ => []
  | .fragmentName _ => []
  | .enumValue _ => []
  | .variable _ => []
  | .value v => [v]
  | .objectValue o => o.fields.map Prod.snd
  | .argument a => [a.value]
  | .arguments as => as.values
  | .directive d => d.values
  | .typeReference _ => []
  | .nonNullType _ => []
  | .variableDefinition d => d.values
  | .field f => f.values
  | .selection s => s.values
  | .selectionSet s => s.values
  | .fragmentSpread s => s.values
  | .inlineFragment f => f.values
  | .fragmentDefinition d => d.values
  | .operationType _ => []
  | .operation o => o.values
  | .definition d => d.values
  | .document d => d.values

/-- All values in a node, at any depth. -/
def Node.parts (node : Node) : List Value :=
  node.values.flatMap Value.parts

theorem SelectionSet.valuesOfAll_eq (selections : List (Selection Value)) :
    SelectionSet.valuesOfAll selections = selections.flatMap Selection.values := by
  induction selections with
  | nil => rfl
  | cons selection rest ih => rw [SelectionSet.valuesOfAll, ih, List.flatMap_cons]

/-- What holds of every selection whose own selections it holds of, and of every spread, holds of
every selection. -/
@[elab_as_elim]
theorem Selection.induction {V : Type} {motive : Selection V → Prop}
    (field : ∀ f, (∀ selection ∈ f.selectionSet.selections, motive selection) →
      motive (.field f))
    (spread : ∀ s, motive (.spread s))
    (inlineFragment : ∀ f, (∀ selection ∈ f.selectionSet.selections, motive selection) →
      motive (.inlineFragment f))
    (selection : Selection V) : motive selection :=
  selection.rec (motive_1 := fun f => ∀ selection ∈ f.selectionSet.selections, motive selection)
    (motive_2 := fun f => ∀ selection ∈ f.selectionSet.selections, motive selection)
    (motive_3 := motive) (motive_4 := fun set => ∀ selection ∈ set.selections, motive selection)
    (motive_5 := fun selections => ∀ selection ∈ selections, motive selection)
    (fun _ _ _ _ _ hset => hset) (fun _ _ _ hset => hset) field spread inlineFragment
    (fun _ hselections => hselections) (List.forall_mem_nil _)
    (fun _ _ hselection hrest => List.forall_mem_cons.mpr ⟨hselection, hrest⟩)

end GraphQLText

import GraphQLText.Reading.Literal

/-!
# What the grammar asks of a tree

A document can hold three things that the grammar of executable documents leaves no room for: an
operation or a fragment that selects nothing, a list type without exactly one item, and a default
value with a variable in it.  These are stated for any type of values, given what is allowed as a
default value, so that they apply to a tree and to what its text says.  The two agree, since a text
keeps the shape of its tree.
-/

namespace GraphQLText

variable {V W : Type}

mutual

def Field.IsFilled : Field V → Prop
  | ⟨_, _, _, _, set⟩ => SelectionSet.IsFilled set
termination_by structural field => field

/-- The inline fragment and each one in it selects something. -/
def InlineFragment.IsFilled : InlineFragment V → Prop
  | ⟨_, _, set⟩ => set.selections ≠ [] ∧ SelectionSet.IsFilled set
termination_by structural fragment => fragment

def Selection.IsFilled : Selection V → Prop
  | .field f => Field.IsFilled f
  | .spread _ => True
  | .inlineFragment f => InlineFragment.IsFilled f
termination_by structural selection => selection

/-- Each inline fragment in a selection set selects something. -/
def SelectionSet.IsFilled : SelectionSet V → Prop
  | ⟨selections⟩ => SelectionSet.AreFilled selections
termination_by structural set => set

def SelectionSet.AreFilled : List (Selection V) → Prop
  | [] => True
  | selection :: rest => Selection.IsFilled selection ∧ SelectionSet.AreFilled rest
termination_by structural selections => selections

end

mutual

/-- Each list type in a type has exactly one item. -/
def TypeReference.IsSingular : TypeReference → Prop
  | .named _ => True
  | .list items => items.length = 1 ∧ TypeReference.AreSingular items
  | .nonNull inner => NonNullType.IsSingular inner
termination_by structural type => type

def NonNullType.IsSingular : NonNullType → Prop
  | .named _ => True
  | .list items => items.length = 1 ∧ TypeReference.AreSingular items
termination_by structural type => type

def TypeReference.AreSingular : List TypeReference → Prop
  | [] => True
  | item :: rest => TypeReference.IsSingular item ∧ TypeReference.AreSingular rest
termination_by structural items => items

end

/-- The type of a variable is singular, and its default value is allowed. -/
structure VariableDefinition.Conforms (allowed : V → Prop) (definition : VariableDefinition V) :
    Prop where
  type : definition.type.IsSingular
  defaultValue : ∀ value ∈ definition.defaultValue, allowed value

/-- A selection set selects something, and so does each inline fragment in it. -/
structure SelectionSet.Conforms (set : SelectionSet V) : Prop where
  nonempty : set.selections ≠ []
  filled : set.IsFilled

/-- What the grammar asks of a definition. -/
def Definition.Conforms (allowed : V → Prop) : Definition V → Prop
  | .operation op =>
    (∀ definition ∈ op.variableDefinitions, definition.Conforms allowed) ∧
      op.selectionSet.Conforms
  | .fragment frag => frag.selectionSet.Conforms

/-- What the grammar asks of a document. -/
def Document.Conforms (allowed : V → Prop) (document : Document V) : Prop :=
  ∀ definition ∈ document.definitions, definition.Conforms allowed

mutual

/-- There is no variable in a value. -/
def Value.IsConstant : Value → Prop
  | .variable _ => False
  | .list items => Value.AreConstant items
  | .map entries => Value.FieldsAreConstant entries
  | .object fields => Value.FieldsAreConstant fields
  | _ => True
termination_by structural value => value

def Value.AreConstant : List Value → Prop
  | [] => True
  | item :: rest => Value.IsConstant item ∧ Value.AreConstant rest
termination_by structural items => items

def Value.FieldsAreConstant : List (Name × Value) → Prop
  | [] => True
  | (_, value) :: rest => Value.IsConstant value ∧ Value.FieldsAreConstant rest
termination_by structural fields => fields

end

mutual

/-- There is no variable in a literal. -/
def Literal.IsConstant : Literal → Prop
  | .variable _ => False
  | .list items => Literal.AreConstant items
  | .object fields => Literal.FieldsAreConstant fields
  | _ => True
termination_by structural literal => literal

def Literal.AreConstant : List Literal → Prop
  | [] => True
  | item :: rest => Literal.IsConstant item ∧ Literal.AreConstant rest
termination_by structural items => items

def Literal.FieldsAreConstant : List (Name × Literal) → Prop
  | [] => True
  | (_, literal) :: rest => Literal.IsConstant literal ∧ Literal.FieldsAreConstant rest
termination_by structural fields => fields

end

/-! ### Changing the values -/

mutual

theorem Field.isFilled_map (g : V → W) : ∀ field : Field V,
    (field.map g).IsFilled ↔ field.IsFilled
  | ⟨_, _, _, _, set⟩ => SelectionSet.isFilled_map g set
termination_by structural field => field

theorem InlineFragment.isFilled_map (g : V → W) : ∀ fragment : InlineFragment V,
    (fragment.map g).IsFilled ↔ fragment.IsFilled
  | ⟨_, _, ⟨selections⟩⟩ => by
    have hfilled := SelectionSet.areFilled_mapList g selections
    cases selections with
    | nil => simp [InlineFragment.map, SelectionSet.map, SelectionSet.mapList,
        InlineFragment.IsFilled]
    | cons selection rest =>
        simp only [InlineFragment.map, SelectionSet.map, SelectionSet.mapList,
          InlineFragment.IsFilled, SelectionSet.IsFilled] at hfilled ⊢
        simp [hfilled]
termination_by structural fragment => fragment

theorem Selection.isFilled_map (g : V → W) : ∀ selection : Selection V,
    (selection.map g).IsFilled ↔ selection.IsFilled
  | .field f => Field.isFilled_map g f
  | .spread _ => Iff.rfl
  | .inlineFragment f => InlineFragment.isFilled_map g f
termination_by structural selection => selection

theorem SelectionSet.isFilled_map (g : V → W) : ∀ set : SelectionSet V,
    (set.map g).IsFilled ↔ set.IsFilled
  | ⟨selections⟩ => SelectionSet.areFilled_mapList g selections
termination_by structural set => set

theorem SelectionSet.areFilled_mapList (g : V → W) : ∀ selections : List (Selection V),
    SelectionSet.AreFilled (SelectionSet.mapList g selections) ↔
      SelectionSet.AreFilled selections
  | [] => Iff.rfl
  | selection :: rest =>
    and_congr (Selection.isFilled_map g selection) (SelectionSet.areFilled_mapList g rest)
termination_by structural selections => selections

end

theorem SelectionSet.conforms_map (g : V → W) (set : SelectionSet V) :
    (set.map g).Conforms ↔ set.Conforms := by
  obtain ⟨selections⟩ := set
  have hfilled := SelectionSet.isFilled_map g ⟨selections⟩
  have hnonempty : SelectionSet.mapList g selections ≠ [] ↔ selections ≠ [] := by
    cases selections with
    | nil => simp [SelectionSet.mapList]
    | cons selection rest => simp [SelectionSet.mapList]
  constructor
  · intro h
    exact ⟨hnonempty.mp h.nonempty, hfilled.mp h.filled⟩
  · intro h
    exact ⟨hnonempty.mpr h.nonempty, hfilled.mpr h.filled⟩

theorem VariableDefinition.conforms_map {g : V → W} {allowed : W → Prop}
    (definition : VariableDefinition V) :
    (definition.map g).Conforms allowed ↔ definition.Conforms fun value => allowed (g value) := by
  obtain ⟨var, type, defaultValue⟩ := definition
  constructor
  · intro h
    refine ⟨h.type, fun value hvalue => h.defaultValue (g value) ?_⟩
    exact Option.mem_map_of_mem g hvalue
  · intro h
    refine ⟨h.type, fun value hvalue => ?_⟩
    obtain ⟨original, horiginal, rfl⟩ := Option.map_eq_some_iff.mp hvalue
    exact h.defaultValue original horiginal

/-! ### What a text says -/

mutual

/-- A variable is read as a variable. -/
theorem Value.isConstant_literal : ∀ value : Value,
    value.literal.IsConstant ↔ value.IsConstant
  | .string _ => Iff.rfl
  | .int _ => Iff.rfl
  | .single _ => Iff.rfl
  | .double _ => Iff.rfl
  | .boolean _ => Iff.rfl
  | .null => Iff.rfl
  | .list items => Value.areConstant_literals items
  | .map entries => Value.fieldsAreConstant_literalFields entries
  | .object fields => Value.fieldsAreConstant_literalFields fields
  | .variable _ => Iff.rfl
  | .enum _ => Iff.rfl
termination_by structural value => value

theorem Value.areConstant_literals : ∀ items : List Value,
    Literal.AreConstant (Value.literals items) ↔ Value.AreConstant items
  | [] => Iff.rfl
  | item :: rest =>
    and_congr (Value.isConstant_literal item) (Value.areConstant_literals rest)
termination_by structural items => items

theorem Value.fieldsAreConstant_literalFields : ∀ fields : List (Name × Value),
    Literal.FieldsAreConstant (Value.literalFields fields) ↔ Value.FieldsAreConstant fields
  | [] => Iff.rfl
  | (_, value) :: rest =>
    and_congr (Value.isConstant_literal value) (Value.fieldsAreConstant_literalFields rest)
termination_by structural fields => fields

end

/-- What the grammar asks of a document it asks of what the text of the document says. -/
theorem Document.conforms_normalForm (document : Document Value) :
    document.normalForm.Conforms Literal.IsConstant ↔ document.Conforms Value.IsConstant := by
  have hdefinition : ∀ definition : Definition Value,
      definition.normalForm.Conforms Literal.IsConstant ↔
        definition.Conforms Value.IsConstant := by
    intro definition
    cases definition with
    | operation op =>
        refine and_congr ?_ (SelectionSet.conforms_map Value.literal op.selectionSet)
        refine List.forall_mem_map.trans ?_
        refine forall₂_congr fun d _ => ?_
        rw [VariableDefinition.conforms_map]
        simp only [Value.isConstant_literal]
    | fragment frag => exact SelectionSet.conforms_map Value.literal frag.selectionSet
  refine List.forall_mem_map.trans ?_
  exact forall₂_congr fun definition _ => hdefinition definition

end GraphQLText

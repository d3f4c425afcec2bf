import GraphQLText.Proofs.Printing.Layout

/-!
# The first fault

Whether a node has a text depends on its checked leaves alone.  If all of them are acceptable, the
node is written, unless it is a document without definitions; otherwise the fault is that of the
first leaf, in the order of writing, that is not acceptable.
-/

namespace GraphQLText

open Mark

/-! ## The leaves among the marks -/

namespace Mark

/-- The leaves among marks, in order. -/
def leaves (marks : List Mark) : List Leaf :=
  marks.filterMap leaf?

@[simp] theorem leaves_nil : leaves [] = [] :=
  rfl

@[simp] theorem leaves_append (marks rest : List Mark) :
    leaves (marks ++ rest) = leaves marks ++ leaves rest :=
  List.filterMap_append

@[simp] theorem leaves_leaf (l : Leaf) (rest : List Mark) :
    leaves (leaf l :: rest) = l :: leaves rest :=
  rfl

@[simp] theorem leaves_space (rest : List Mark) : leaves (space :: rest) = leaves rest :=
  rfl

@[simp] theorem leaves_punctuator (c : Char) (rest : List Mark) :
    leaves (punctuator c :: rest) = leaves rest :=
  rfl

@[simp] theorem leaves_spread (rest : List Mark) : leaves (spread :: rest) = leaves rest :=
  rfl

@[simp] theorem leaves_word (w : String) (rest : List Mark) :
    leaves (word w :: rest) = leaves rest :=
  rfl

@[simp] theorem leaves_ledBySpaces (items : List (List Mark)) :
    leaves (ledBySpaces items) = items.flatMap leaves :=
  filterMap_ledBySpaces rfl items

@[simp] theorem leaves_spaced (items : List (List Mark)) :
    leaves (spaced items) = items.flatMap leaves :=
  filterMap_spaced rfl items

@[simp] theorem leaves_bracketed (c d : Char) (items : List (List Mark)) :
    leaves (bracketed c d items) = items.flatMap leaves := by
  simp [bracketed]

@[simp] theorem leaves_block (items : List (List Mark)) :
    leaves (block items) = items.flatMap leaves := by
  simp [block]

@[simp] theorem leaves_labelled (label content : List Mark) :
    leaves (labelled label content) = leaves label ++ leaves content := by
  simp [labelled]

end Mark

mutual

/-- The leaves among the marks of a value are its checked leaves. -/
theorem Value.leaves_marks : ∀ value : Value, Mark.leaves value.marks = value.leaves
  | .string _ => rfl
  | .int _ => rfl
  | .single _ => rfl
  | .double _ => rfl
  | .boolean _ => rfl
  | .null => rfl
  | .list items => by simp [marks, leaves, Value.leaves_marksOfItems items]
  | .map entries => by simp [marks, leaves, Value.leaves_marksOfFields entries]
  | .object fields => by simp [marks, leaves, Value.leaves_marksOfFields fields]
  | .variable _ => rfl
  | .enum _ => rfl
termination_by structural value => value

theorem Value.leaves_marksOfItems : ∀ items : List Value,
    (Value.marksOfItems items).flatMap Mark.leaves = Value.leavesOfItems items
  | [] => rfl
  | item :: rest => by
    simp [marksOfItems, leavesOfItems, Value.leaves_marks item,
      Value.leaves_marksOfItems rest]
termination_by structural items => items

theorem Value.leaves_marksOfFields : ∀ fields : List (Name × Value),
    (Value.marksOfFields fields).flatMap Mark.leaves = Value.leavesOfFields fields
  | [] => rfl
  | (name, value) :: rest => by
    simp [marksOfFields, leavesOfFields, Value.leaves_marks value,
      Value.leaves_marksOfFields rest]
termination_by structural fields => fields

end

theorem Argument.leaves_marks (argument : Argument Value) :
    Mark.leaves argument.marks = argument.leaves := by
  simp [marks, leaves, Value.leaves_marks]

theorem Arguments.leaves_marks (arguments : Arguments Value) :
    Mark.leaves arguments.marks = arguments.leaves := by
  obtain ⟨items⟩ := arguments
  cases items with
  | nil => rfl
  | cons argument rest =>
      simp [marks, leaves, isEmpty, List.flatMap_map, Argument.leaves_marks]

theorem Directive.leaves_marks (directive : Directive Value) :
    Mark.leaves directive.marks = directive.leaves := by
  simp [marks, leaves, Arguments.leaves_marks]

theorem Directive.leaves_marksOfAll (directives : List (Directive Value)) :
    Mark.leaves (marksOfAll directives) = leavesOfAll directives := by
  simp [marksOfAll, leavesOfAll, List.flatMap_map, leaves_marks]

theorem FragmentSpread.leaves_marks (spread : FragmentSpread Value) :
    Mark.leaves spread.marks = spread.leaves := by
  simp [marks, leaves, Directive.leaves_marksOfAll]

theorem Field.leaves_nameMarks (aliasName : Option Name) (name : Name) :
    Mark.leaves (nameMarks aliasName name) =
      Leaf.ofName? aliasName ++ [.name name] := by
  cases aliasName with
  | none => rfl
  | some given => rfl

theorem InlineFragment.leaves_conditionMarks (typeCondition : Option Name) :
    Mark.leaves (conditionMarks typeCondition) = Leaf.ofName? typeCondition := by
  cases typeCondition with
  | none => rfl
  | some type => rfl

mutual

theorem Field.leaves_marks : ∀ field : Field Value, Mark.leaves field.marks = field.leaves
  | ⟨aliasName, name, arguments, directives, set⟩ => by
    have hset := SelectionSet.leaves_marks set
    have hblock : Mark.leaves (if set.isEmpty then [] else space :: set.marks) =
        set.leaves := by
      split
      · next hempty =>
          obtain ⟨selections⟩ := set
          cases selections with
          | nil => rfl
          | cons selection rest => simp [SelectionSet.isEmpty] at hempty
      · exact hset
    simp [Field.marks, Field.leaves, Field.leaves_nameMarks, Arguments.leaves_marks,
      Directive.leaves_marksOfAll, hblock]
termination_by structural field => field

theorem InlineFragment.leaves_marks : ∀ fragment : InlineFragment Value,
    Mark.leaves fragment.marks = fragment.leaves
  | ⟨typeCondition, directives, set⟩ => by
    simp [InlineFragment.marks, InlineFragment.leaves,
      InlineFragment.leaves_conditionMarks, Directive.leaves_marksOfAll,
      SelectionSet.leaves_marks set]
termination_by structural fragment => fragment

theorem Selection.leaves_marks : ∀ selection : Selection Value,
    Mark.leaves selection.marks = selection.leaves
  | .field f => by
    rw [Selection.marks, Selection.leaves, Field.leaves_marks f]
  | .spread s => by
    rw [Selection.marks, Selection.leaves, s.leaves_marks]
  | .inlineFragment f => by
    rw [Selection.marks, Selection.leaves, InlineFragment.leaves_marks f]
termination_by structural selection => selection

theorem SelectionSet.leaves_marks : ∀ set : SelectionSet Value,
    Mark.leaves set.marks = set.leaves
  | ⟨selections⟩ => by
    rw [SelectionSet.marks, SelectionSet.leaves, leaves_block,
      SelectionSet.leaves_marksOfAll selections]
termination_by structural set => set

theorem SelectionSet.leaves_marksOfAll : ∀ selections : List (Selection Value),
    (SelectionSet.marksOfAll selections).flatMap Mark.leaves =
      SelectionSet.leavesOfAll selections
  | [] => rfl
  | selection :: rest => by
    simp [SelectionSet.marksOfAll, SelectionSet.leavesOfAll,
      Selection.leaves_marks selection, SelectionSet.leaves_marksOfAll rest]
termination_by structural selections => selections

end

mutual

theorem TypeReference.leaves_marks : ∀ type : TypeReference,
    Mark.leaves type.marks = type.leaves
  | .named _ => rfl
  | .list items => by
    rw [TypeReference.marks, TypeReference.leaves, leaves_bracketed,
      TypeReference.leaves_marksOfAll items]
  | .nonNull inner => by
    rw [TypeReference.marks, TypeReference.leaves, NonNullType.leaves_marks inner]
termination_by structural type => type

theorem NonNullType.leaves_marks : ∀ type : NonNullType,
    Mark.leaves type.marks = type.leaves
  | .named _ => rfl
  | .list items => by
    simp [NonNullType.marks, NonNullType.leaves, TypeReference.leaves_marksOfAll items]
termination_by structural type => type

theorem TypeReference.leaves_marksOfAll : ∀ items : List TypeReference,
    (TypeReference.marksOfAll items).flatMap Mark.leaves = TypeReference.leavesOfAll items
  | [] => rfl
  | item :: rest => by
    simp [TypeReference.marksOfAll, TypeReference.leavesOfAll,
      TypeReference.leaves_marks item, TypeReference.leaves_marksOfAll rest]
termination_by structural items => items

end

theorem VariableDefinition.leaves_marks (definition : VariableDefinition Value) :
    Mark.leaves definition.marks = definition.leaves := by
  obtain ⟨var, type, defaultValue⟩ := definition
  cases defaultValue with
  | none => simp [marks, leaves, defaultMarks, TypeReference.leaves_marks]
  | some value =>
      simp [marks, leaves, defaultMarks, TypeReference.leaves_marks, Value.leaves_marks]

theorem Operation.leaves_nameMarks (operation : Operation Value) :
    Mark.leaves (nameMarks operation.writtenName?) = operation.nameLeaves := by
  unfold writtenName? nameLeaves
  cases operation.name with
  | none => rfl
  | some name =>
      by_cases hempty : name.text = ""
      · simp [Option.filter, hempty, nameMarks]
      · simp [Option.filter, hempty, nameMarks]

theorem Operation.leaves_variableMarks (definitions : List (VariableDefinition Value)) :
    Mark.leaves (variableMarks definitions) =
      definitions.flatMap VariableDefinition.leaves := by
  cases definitions with
  | nil => rfl
  | cons definition rest =>
      simp [variableMarks, List.flatMap_map, VariableDefinition.leaves_marks]

theorem Operation.leaves_marks (operation : Operation Value) :
    Mark.leaves operation.marks = operation.leaves := by
  simp [marks, leaves, leaves_nameMarks, leaves_variableMarks,
    Directive.leaves_marksOfAll, SelectionSet.leaves_marks]

theorem FragmentDefinition.leaves_marks (definition : FragmentDefinition Value) :
    Mark.leaves definition.marks = definition.leaves := by
  simp [marks, leaves, Directive.leaves_marksOfAll, SelectionSet.leaves_marks]

theorem Definition.leaves_marks (definition : Definition Value) :
    Mark.leaves definition.marks = definition.leaves := by
  cases definition with
  | operation op => exact op.leaves_marks
  | fragment frag => exact frag.leaves_marks

theorem Document.leaves_marks (document : Document Value) :
    Mark.leaves document.marks = document.leaves := by
  simp [marks, leaves, List.flatMap_map, Definition.leaves_marks]

/-- The leaves among the marks of a node are its checked leaves. -/
theorem Node.leaves_marks : ∀ node : Node, Mark.leaves node.marks = node.leaves
  | .name _ => rfl
  | .fragmentName _ => rfl
  | .enumValue _ => rfl
  | .variable _ => rfl
  | .value v => v.leaves_marks
  | .objectValue o => by
    rw [marks, leaves, leaves_bracketed, Value.leaves_marksOfFields]
  | .argument a => a.leaves_marks
  | .arguments as => as.leaves_marks
  | .directive d => d.leaves_marks
  | .typeReference t => t.leaves_marks
  | .nonNullType t => t.leaves_marks
  | .variableDefinition d => d.leaves_marks
  | .field f => f.leaves_marks
  | .selection s => s.leaves_marks
  | .selectionSet s => s.leaves_marks
  | .fragmentSpread s => s.leaves_marks
  | .inlineFragment f => f.leaves_marks
  | .fragmentDefinition d => d.leaves_marks
  | .operationType _ => rfl
  | .operation o => o.leaves_marks
  | .definition d => d.leaves_marks
  | .document d => d.leaves_marks

/-! ## The result of printing -/

/-- A node without a fault in its marks prints as their characters. -/
theorem Node.print_eq_ok {node : Node} (h : ¬ node.IsEmptyDocument)
    (hfault : firstFault? node.marks = none) :
    node.print = .ok (String.ofList (node.marks.flatMap Mark.text)) := by
  unfold print Printer.print
  rw [node.printer_writes h, outcome, hfault, written_eq_flatMap hfault]
  simp

theorem Node.print_eq_error {node : Node} {fault : Fault}
    (h : ¬ node.IsEmptyDocument) (hfault : firstFault? node.marks = some fault) :
    node.print = .error fault := by
  unfold print Printer.print
  rw [node.printer_writes h, outcome, hfault]

theorem Node.print_emptyDocument {node : Node} (h : node.IsEmptyDocument) :
    node.print = .error .emptyDocument := by
  rw [h]
  rfl

/-- What printing well says about the marks of a node, and about its text. -/
theorem Node.print_eq_ok_iff {node : Node} {text : String} :
    node.print = .ok text ↔ ¬ node.IsEmptyDocument ∧ firstFault? node.marks = none ∧
      text = String.ofList (node.marks.flatMap Mark.text) := by
  constructor
  · intro hprint
    have hempty : ¬ node.IsEmptyDocument := by
      intro h
      rw [print_emptyDocument h] at hprint
      cases hprint
    cases hfault : firstFault? node.marks with
    | some fault =>
        rw [node.print_eq_error hempty hfault] at hprint
        cases hprint
    | none =>
        rw [node.print_eq_ok hempty hfault] at hprint
        exact ⟨hempty, rfl, (Except.ok.inj hprint).symm⟩
  · rintro ⟨hempty, hfault, rfl⟩
    exact node.print_eq_ok hempty hfault

theorem Node.leaves_emptyDocument {node : Node} (h : node.IsEmptyDocument) :
    node.leaves = [] := by
  rw [h]
  rfl

theorem Node.firstFault?_marks (node : Node) :
    firstFault? node.marks = node.leaves.findSome? Leaf.fault? := by
  rw [firstFault?_eq, ← node.leaves_marks]
  rfl

theorem Node.exists_print_eq_ok_iff {node : Node} (h : ¬ node.IsEmptyDocument) :
    (∃ text, node.print = .ok text) ↔ node.leaves.findSome? Leaf.fault? = none := by
  rw [← firstFault?_marks]
  cases hfault : firstFault? node.marks with
  | none => simp [node.print_eq_ok h hfault]
  | some fault => simp [node.print_eq_error h hfault]

theorem Node.print_eq_error_iff {node : Node} (h : ¬ node.IsEmptyDocument)
    {fault : Fault} :
    node.print = .error fault ↔ node.leaves.findSome? Leaf.fault? = some fault := by
  rw [← firstFault?_marks]
  cases hfault : firstFault? node.marks with
  | none => simp [node.print_eq_ok h hfault]
  | some first => simp [node.print_eq_error h hfault]

/-- A node has a text if and only if its checked leaves are all acceptable and it is not a document
without definitions.  Otherwise its fault is that of the first leaf that is not acceptable, or that
of the document without definitions. -/
theorem Node.print_eq_first_fault (node : Node) :
    ((∃ text, node.print = .ok text) ↔
      (∀ leaf ∈ node.leaves, leaf.IsAcceptable) ∧ ¬ node.IsEmptyDocument) ∧
    (∀ fault, node.print = .error fault ↔
      (node.IsEmptyDocument ∧ fault = .emptyDocument) ∨
      ∃ before leaf after, node.leaves = before ++ leaf :: after ∧
        leaf.fault? = some fault ∧ ∀ earlier ∈ before, earlier.IsAcceptable) := by
  by_cases hempty : node.IsEmptyDocument
  · have hprint := node.print_emptyDocument hempty
    constructor
    · simp [hprint, hempty]
    · intro fault
      simp [hprint, hempty, node.leaves_emptyDocument hempty, eq_comm]
  · constructor
    · rw [exists_print_eq_ok_iff hempty, List.findSome?_eq_none_iff]
      exact ⟨fun hall => ⟨hall, hempty⟩, fun h => h.1⟩
    · intro fault
      rw [print_eq_error_iff hempty, List.findSome?_eq_some_iff]
      constructor
      · intro hfirst
        exact Or.inr hfirst
      · rintro (⟨hdocument, -⟩ | hfirst)
        · exact absurd hdocument hempty
        · exact hfirst

end GraphQLText

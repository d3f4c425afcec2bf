import GraphQLText.Proofs.Tree.NodeEquality
import GraphQLText.Tree.Edit
import Mathlib.Data.List.DropRight
import Mathlib.Data.List.Induction

/-!
# Segments of a node

An edit touches one segment of a node and leaves the others alone.  So the node after a sequence of
edits is known segment by segment, from the edits that touch the segment.  A segment that is a
single part is what the last of them gives.  A segment that is a list is what the last replacement
gives, followed by all that is added after it.  Edits of different segments can therefore change
places.
-/

namespace GraphQLText

/-- What edits can change in a node. -/
inductive Segment where
  | aliasName
  | name
  | typeCondition
  | defaultValue
  | arguments
  | fields
  | directives
  | selections
  | variableDefinitions
  | definitions
deriving DecidableEq

namespace Edit

/-- The segment that an edit touches. -/
def segment : Edit → Segment
  | .setAlias _ => .aliasName
  | .setName _ => .name
  | .setTypeCondition _ => .typeCondition
  | .setDefault _ => .defaultValue
  | .setArguments _ | .addArgument _ => .arguments
  | .setSelectionSet _ | .addSelection _ => .selections
  | .addField _ _ => .fields
  | .addDirective _ => .directives
  | .addVariableDefinition _ => .variableDefinitions
  | .addDefinition _ => .definitions

/-- The edits that touch a segment, in their order. -/
def touching (edits : List Edit) (segment : Segment) : List Edit :=
  edits.filter fun edit => edit.segment = segment

theorem touching_nil (segment : Segment) : touching [] segment = [] :=
  rfl

/-- A further edit is seen in its own segment only. -/
theorem touching_concat (edits : List Edit) (edit : Edit) (segment : Segment) :
    touching (edits ++ [edit]) segment =
      if edit.segment = segment then touching edits segment ++ [edit]
      else touching edits segment := by
  rw [touching, List.filter_append]
  split_ifs with h
  · simp [touching, h]
  · simp [touching, h]

theorem mem_touching_segment {edits : List Edit} {edit : Edit} :
    edit ∈ touching edits edit.segment ↔ edit ∈ edits := by
  simp [touching]

section

variable {α : Type}

/-- The part that the last edit gives, or the one at the start if no edit gives any. -/
def lastGiven (given? : Edit → Option α) (start : α) (edits : List Edit) : α :=
  (edits.filterMap given?).getLastD start

/-- The items at the start, followed by all items that edits add. -/
def withAdded (added? : Edit → Option α) (start : List α) (edits : List Edit) : List α :=
  start ++ edits.filterMap added?

/-- The items that the last replacement gives, or those at the start if there is none, followed by
all items that are added after it. -/
def extended (given? : Edit → Option (List α)) (added? : Edit → Option α) (start : List α)
    (edits : List Edit) : List α :=
  withAdded added? (lastGiven given? start edits)
    (edits.rtakeWhile fun edit => (given? edit).isNone)

theorem lastGiven_nil (given? : Edit → Option α) (start : α) : lastGiven given? start [] = start :=
  rfl

theorem withAdded_nil (added? : Edit → Option α) (start : List α) :
    withAdded added? start [] = start :=
  List.append_nil start

theorem extended_nil (given? : Edit → Option (List α)) (added? : Edit → Option α)
    (start : List α) : extended given? added? start [] = start :=
  withAdded_nil added? start

theorem lastGiven_concat (given? : Edit → Option α) (start : α) (edits : List Edit) (edit : Edit) :
    lastGiven given? start (edits ++ [edit]) =
      (given? edit).getD (lastGiven given? start edits) := by
  rw [lastGiven, List.filterMap_append]
  cases h : given? edit with
  | none => simp [lastGiven, h]
  | some part => simp [h]

theorem withAdded_concat (added? : Edit → Option α) (start : List α) (edits : List Edit)
    (edit : Edit) :
    withAdded added? start (edits ++ [edit]) =
      withAdded added? start edits ++ (added? edit).toList := by
  rw [withAdded, withAdded, List.filterMap_append, List.append_assoc]
  cases h : added? edit with
  | none => simp [h]
  | some item => simp [h]

theorem extended_concat (given? : Edit → Option (List α)) (added? : Edit → Option α)
    (start : List α) (edits : List Edit) (edit : Edit) :
    extended given? added? start (edits ++ [edit]) =
      match given? edit with
      | some items => items
      | none => extended given? added? start edits ++ (added? edit).toList := by
  rw [extended, lastGiven_concat, List.rtakeWhile_concat]
  cases h : given? edit with
  | none => exact withAdded_concat _ _ _ _
  | some items => exact List.append_nil items

end

/-! ### What edits make of a segment -/

/-- The alias that was set last.  Setting it to none clears it. -/
def aliasAfter : Option Name → List Edit → Option Name :=
  lastGiven fun
    | .setAlias name => some name
    | _ => none

def nameAfter : Option Name → List Edit → Option Name :=
  lastGiven fun
    | .setName name => some name
    | _ => none

def typeConditionAfter : Option Name → List Edit → Option Name :=
  lastGiven fun
    | .setTypeCondition condition => some condition
    | _ => none

def defaultAfter : Option Value → List Edit → Option Value :=
  lastGiven fun
    | .setDefault value => some (some value)
    | _ => none

/-- The arguments that were set last, and then those that were added. -/
def argumentsAfter (start : Arguments Value) (edits : List Edit) : Arguments Value :=
  ⟨extended
    (fun
      | .setArguments arguments => some arguments.items
      | _ => none)
    (fun
      | .addArgument argument => some argument
      | _ => none)
    start.items edits⟩

/-- The selections that were set last, and then those that were added. -/
def selectionsAfter (start : SelectionSet Value) (edits : List Edit) : SelectionSet Value :=
  ⟨extended
    (fun
      | .setSelectionSet set => some set.selections
      | _ => none)
    (fun
      | .addSelection selection => some selection
      | _ => none)
    start.selections edits⟩

def directivesAfter : List (Directive Value) → List Edit → List (Directive Value) :=
  withAdded fun
    | .addDirective directive => some directive
    | _ => none

def variableDefinitionsAfter :
    List (VariableDefinition Value) → List Edit → List (VariableDefinition Value) :=
  withAdded fun
    | .addVariableDefinition definition => some definition
    | _ => none

def fieldsAfter (start : ObjectValue) (edits : List Edit) : ObjectValue :=
  ⟨withAdded
    (fun
      | .addField name value => some (name, value)
      | _ => none)
    start.fields edits⟩

def definitionsAfter (start : Document Value) (edits : List Edit) : Document Value :=
  ⟨withAdded
    (fun
      | .addDefinition definition => some definition
      | _ => none)
    start.definitions edits⟩

section

variable (edits : List Edit)

@[simp] theorem aliasAfter_setAlias (start name : Option Name) :
    aliasAfter start (edits ++ [.setAlias name]) = name :=
  lastGiven_concat _ _ _ _

@[simp] theorem nameAfter_setName (start name : Option Name) :
    nameAfter start (edits ++ [.setName name]) = name :=
  lastGiven_concat _ _ _ _

@[simp] theorem typeConditionAfter_setTypeCondition (start condition : Option Name) :
    typeConditionAfter start (edits ++ [.setTypeCondition condition]) = condition :=
  lastGiven_concat _ _ _ _

@[simp] theorem defaultAfter_setDefault (start : Option Value) (value : Value) :
    defaultAfter start (edits ++ [.setDefault value]) = some value :=
  lastGiven_concat _ _ _ _

@[simp] theorem argumentsAfter_setArguments (start arguments : Arguments Value) :
    argumentsAfter start (edits ++ [.setArguments arguments]) = arguments :=
  congrArg Arguments.mk (extended_concat _ _ _ _ _)

@[simp] theorem argumentsAfter_addArgument (start : Arguments Value) (argument : Argument Value) :
    argumentsAfter start (edits ++ [.addArgument argument]) =
      (argumentsAfter start edits).add argument :=
  congrArg Arguments.mk (extended_concat _ _ _ _ _)

@[simp] theorem selectionsAfter_setSelectionSet (start set : SelectionSet Value) :
    selectionsAfter start (edits ++ [.setSelectionSet set]) = set := by
  obtain ⟨selections⟩ := set
  exact congrArg SelectionSet.mk (extended_concat _ _ _ _ _)

@[simp] theorem selectionsAfter_addSelection (start : SelectionSet Value)
    (selection : Selection Value) :
    selectionsAfter start (edits ++ [.addSelection selection]) =
      (selectionsAfter start edits).add selection :=
  congrArg SelectionSet.mk (extended_concat _ _ _ _ _)

@[simp] theorem directivesAfter_addDirective (start : List (Directive Value))
    (directive : Directive Value) :
    directivesAfter start (edits ++ [.addDirective directive]) =
      directivesAfter start edits ++ [directive] :=
  withAdded_concat _ _ _ _

@[simp] theorem variableDefinitionsAfter_addVariableDefinition
    (start : List (VariableDefinition Value)) (definition : VariableDefinition Value) :
    variableDefinitionsAfter start (edits ++ [.addVariableDefinition definition]) =
      variableDefinitionsAfter start edits ++ [definition] :=
  withAdded_concat _ _ _ _

@[simp] theorem fieldsAfter_addField (start : ObjectValue) (name : Name) (value : Value) :
    fieldsAfter start (edits ++ [.addField name value]) =
      (fieldsAfter start edits).addField name value :=
  congrArg ObjectValue.mk (withAdded_concat _ _ _ _)

@[simp] theorem definitionsAfter_addDefinition (start : Document Value)
    (definition : Definition Value) :
    definitionsAfter start (edits ++ [.addDefinition definition]) =
      (definitionsAfter start edits).add definition :=
  congrArg Document.mk (withAdded_concat _ _ _ _)

end

end Edit

namespace Node

open Edit

/-- The edits that nodes admit, by the kind of the node.  Nodes of all other kinds admit none. -/
inductive Admits : Node → Edit → Prop where
  | fieldAlias (f name) : Admits (.field f) (.setAlias name)
  | fieldArguments (f arguments) : Admits (.field f) (.setArguments arguments)
  | fieldSelectionSet (f set) : Admits (.field f) (.setSelectionSet set)
  | fieldArgument (f argument) : Admits (.field f) (.addArgument argument)
  | fieldDirective (f directive) : Admits (.field f) (.addDirective directive)
  | fieldSelection (f selection) : Admits (.field f) (.addSelection selection)
  | operationName (o name) : Admits (.operation o) (.setName name)
  | operationVariable (o definition) : Admits (.operation o) (.addVariableDefinition definition)
  | operationDirective (o directive) : Admits (.operation o) (.addDirective directive)
  | operationSelection (o selection) : Admits (.operation o) (.addSelection selection)
  | inlineFragmentCondition (f condition) :
      Admits (.inlineFragment f) (.setTypeCondition condition)
  | inlineFragmentDirective (f directive) : Admits (.inlineFragment f) (.addDirective directive)
  | fragmentSpreadDirective (s directive) : Admits (.fragmentSpread s) (.addDirective directive)
  | fragmentDefinitionDirective (d directive) :
      Admits (.fragmentDefinition d) (.addDirective directive)
  | directiveArgument (d argument) : Admits (.directive d) (.addArgument argument)
  | argumentsArgument (as argument) : Admits (.arguments as) (.addArgument argument)
  | variableDefault (d value) : Admits (.variableDefinition d) (.setDefault value)
  | objectField (o name value) : Admits (.objectValue o) (.addField name value)
  | selectionSetSelection (set selection) : Admits (.selectionSet set) (.addSelection selection)
  | documentDefinition (doc definition) : Admits (.document doc) (.addDefinition definition)

/-- The node with each segment as the edits of the segment make it, and all else as it was. -/
def rebuilt (edits : Segment → List Edit) : Node → Node
  | .field f => .field { f with
      aliasName := aliasAfter f.aliasName (edits .aliasName)
      arguments := argumentsAfter f.arguments (edits .arguments)
      directives := directivesAfter f.directives (edits .directives)
      selectionSet := selectionsAfter f.selectionSet (edits .selections) }
  | .operation o => .operation { o with
      name := nameAfter o.name (edits .name)
      variableDefinitions :=
        variableDefinitionsAfter o.variableDefinitions (edits .variableDefinitions)
      directives := directivesAfter o.directives (edits .directives)
      selectionSet := selectionsAfter o.selectionSet (edits .selections) }
  | .inlineFragment f => .inlineFragment { f with
      typeCondition := typeConditionAfter f.typeCondition (edits .typeCondition)
      directives := directivesAfter f.directives (edits .directives) }
  | .fragmentSpread s => .fragmentSpread { s with
      directives := directivesAfter s.directives (edits .directives) }
  | .fragmentDefinition d => .fragmentDefinition { d with
      directives := directivesAfter d.directives (edits .directives) }
  | .directive d => .directive { d with
      arguments := argumentsAfter d.arguments (edits .arguments) }
  | .arguments as => .arguments (argumentsAfter as (edits .arguments))
  | .variableDefinition d => .variableDefinition { d with
      defaultValue := defaultAfter d.defaultValue (edits .defaultValue) }
  | .objectValue o => .objectValue (fieldsAfter o (edits .fields))
  | .selectionSet set => .selectionSet (selectionsAfter set (edits .selections))
  | .document doc => .document (definitionsAfter doc (edits .definitions))
  | node => node

/-- Without edits, a node is as it was. -/
theorem rebuilt_touching_nil (start : Node) : start.rebuilt (touching []) = start := by
  cases start
  -- Selections are recursive, so that what holds them is taken apart first.
  case' field f => obtain ⟨_, _, _, _, ⟨_⟩⟩ := f
  case' inlineFragment f => obtain ⟨⟩ := f
  case' operation o => obtain ⟨_, _, _, _, ⟨_⟩⟩ := o
  case' selectionSet set => obtain ⟨⟩ := set
  all_goals simp only [rebuilt, touching_nil, aliasAfter, nameAfter, typeConditionAfter,
    defaultAfter, argumentsAfter, selectionsAfter, directivesAfter, variableDefinitionsAfter,
    fieldsAfter, definitionsAfter, lastGiven_nil, withAdded_nil, extended_nil]

/-- What a node admits depends on its kind alone, and no edit changes that. -/
theorem admits_rebuilt_iff {start : Node} {edit : Edit} {edits : Segment → List Edit} :
    (start.rebuilt edits).Admits edit ↔ start.Admits edit := by
  constructor
  · intro h
    cases start <;> cases h <;> constructor
  · intro h
    cases h <;> constructor

/-- Only what a node admits is carried out. -/
theorem admits_of_edit?_eq_some {node next : Node} {edit : Edit} (h : node.edit? edit = some next) :
    node.Admits edit := by
  revert h
  fun_cases Node.edit? node edit
  any_goals
    intro _
    constructor
  -- What is left are the edits that no kind of node carries out.
  exact fun h => nomatch h

/-- A further edit is carried out if the node admits it, and does to the node what it does to the
segment that it touches. -/
theorem edit?_rebuilt {start : Node} {edit : Edit} (h : start.Admits edit) (edits : List Edit) :
    (start.rebuilt (touching edits)).edit? edit =
      some (start.rebuilt (touching (edits ++ [edit]))) := by
  cases h
  all_goals
    simp only [rebuilt, touching_concat, Edit.segment, reduceCtorEq, if_true, if_false,
      aliasAfter_setAlias, nameAfter_setName, typeConditionAfter_setTypeCondition,
      defaultAfter_setDefault, argumentsAfter_setArguments, argumentsAfter_addArgument,
      selectionsAfter_setSelectionSet, selectionsAfter_addSelection, directivesAfter_addDirective,
      variableDefinitionsAfter_addVariableDefinition, fieldsAfter_addField,
      definitionsAfter_addDefinition]
    rfl

theorem edits?_concat (start : Node) (edits : List Edit) (edit : Edit) :
    start.edits? (edits ++ [edit]) = (start.edits? edits).bind (edit? · edit) := by
  simp [edits?, List.foldlM_append]

/-- The node after a run of edits. -/
theorem edits?_eq_rebuilt {start : Node} {edits : List Edit}
    (h : ∀ edit ∈ edits, start.Admits edit) :
    start.edits? edits = some (start.rebuilt (touching edits)) := by
  induction edits using List.reverseRecOn with
  | nil =>
      rw [rebuilt_touching_nil]
      rfl
  | append_singleton edits edit ih =>
      rw [List.forall_mem_append, List.forall_mem_singleton] at h
      rw [edits?_concat, ih h.1, Option.bind_some, edit?_rebuilt h.2]

/-- A run of edits goes through if and only if the node at its start admits all of them. -/
theorem exists_edits?_eq_some_iff {start : Node} {edits : List Edit} :
    (∃ final, start.edits? edits = some final) ↔ ∀ edit ∈ edits, start.Admits edit := by
  refine ⟨?_, fun h => ⟨_, edits?_eq_rebuilt h⟩⟩
  induction edits using List.reverseRecOn with
  | nil => exact fun _ => List.forall_mem_nil _
  | append_singleton edits edit ih =>
      rintro ⟨final, hfinal⟩
      rw [edits?_concat, Option.bind_eq_some_iff] at hfinal
      obtain ⟨node, hnode, hfinal⟩ := hfinal
      have hedits := ih ⟨node, hnode⟩
      rw [edits?_eq_rebuilt hedits, Option.some.injEq] at hnode
      rw [← hnode] at hfinal
      rw [List.forall_mem_append, List.forall_mem_singleton]
      exact ⟨hedits, admits_rebuilt_iff.mp (admits_of_edit?_eq_some hfinal)⟩

/-- The edits of a sequence are all carried out if and only if the node admits each of them by its
kind.  Then each segment of the node is what the edits touching the segment make of it.  Sequences
that have the same edits for each segment, in the same order, therefore lead to the same node, and
so to the same text or fault; as this node equals itself if there is no NaN in it, the results are
then equal also by comparison. -/
theorem edits?_determined_by_touching (start : Node) (edits : List Edit) :
    ((∃ final, start.edits? edits = some final) ↔ ∀ edit ∈ edits, start.Admits edit) ∧
    ((∀ edit ∈ edits, start.Admits edit) →
      start.edits? edits = some (start.rebuilt (touching edits)) ∧
      ∀ others : List Edit, (∀ segment, touching others segment = touching edits segment) →
        ∃ final, start.edits? edits = some final ∧ start.edits? others = some final ∧
          ((final == final) = true ↔ ∀ part ∈ final.parts, part.isNaN = false)) := by
  refine ⟨exists_edits?_eq_some_iff, ?_⟩
  intro hedits
  have hfinal := edits?_eq_rebuilt hedits
  refine ⟨hfinal, ?_⟩
  intro others hsame
  have hothers : ∀ edit ∈ others, start.Admits edit := by
    intro edit hedit
    rw [← mem_touching_segment, hsame, mem_touching_segment] at hedit
    exact hedits edit hedit
  refine ⟨start.rebuilt (touching edits), hfinal, ?_, Node.beq_self_iff _⟩
  rw [edits?_eq_rebuilt hothers, funext hsame]

/-- A field whose alias is set and cleared and whose arguments are replaced between additions, with
its directive and its selection added in between or at the ends. -/
theorem edits?_determined_by_touching_field :
    let size (n : Int64) : Argument Value := ⟨⟨"size"⟩, .int n⟩
    let cached : Directive Value := { name := ⟨"cached"⟩ }
    let url : Selection Value := .field { name := ⟨"url"⟩, selectionSet := ⟨[]⟩ }
    let start : Node := .field
      { aliasName := some ⟨"photo"⟩, name := ⟨"picture"⟩, selectionSet := ⟨[]⟩ }
    let edits : List Edit :=
      [.setAlias (some ⟨"small"⟩), .addArgument (size 1), .addDirective cached,
        .setArguments ⟨[size 2]⟩, .addSelection url, .setAlias none, .addArgument (size 3)]
    let others : List Edit :=
      [.addSelection url, .addArgument (size 1), .setArguments ⟨[size 2]⟩, .addArgument (size 3),
        .setAlias (some ⟨"small"⟩), .setAlias none, .addDirective cached]
    let final : Node := .field
      { name := ⟨"picture"⟩, arguments := ⟨[size 2, size 3]⟩, directives := [cached],
        selectionSet := ⟨[url]⟩ }
    (∀ edit ∈ edits, start.Admits edit) ∧
      (∀ segment, touching others segment = touching edits segment) ∧
      start.edits? edits = some final ∧ start.edits? others = some final ∧
      (final == final) = true := by
  intro size cached url start edits others final
  have hadmits : ∀ edit ∈ edits, start.Admits edit := by
    simp only [edits, List.forall_mem_cons]
    exact ⟨.fieldAlias _ _, .fieldArgument _ _, .fieldDirective _ _, .fieldArguments _ _,
      .fieldSelection _ _, .fieldAlias _ _, .fieldArgument _ _, List.forall_mem_nil _⟩
  have hsame : ∀ segment, touching others segment = touching edits segment := by
    intro segment
    cases segment <;> rfl
  obtain ⟨hedits, hinterleaved⟩ := (edits?_determined_by_touching start edits).2 hadmits
  have hfinal : start.rebuilt (touching edits) = final := rfl
  rw [hfinal] at hedits
  obtain ⟨node, hnode, hothers, hself⟩ := hinterleaved others hsame
  obtain rfl : final = node := Option.some.inj (hedits.symm.trans hnode)
  exact ⟨hadmits, hsame, hedits, hothers, hself.mpr (by decide)⟩

end Node

end GraphQLText

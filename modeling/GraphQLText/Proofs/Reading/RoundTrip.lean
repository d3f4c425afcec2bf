import GraphQLText.Proofs.Printing.FirstFault
import GraphQLText.Proofs.Reading.Lexing
import GraphQLText.Proofs.Reading.Rules

/-!
# Reading back

The tokens of a node are put together by the rules of the reader, so the reader takes them as what
the text of the node says.  For a document this is its normal form: nothing else is lost by
printing.
-/

namespace GraphQLText

open Mark

/-! ### The tokens of joins -/

namespace Mark

@[simp] theorem tokens_nil : tokens [] = [] :=
  rfl

@[simp] theorem tokens_append (marks rest : List Mark) :
    tokens (marks ++ rest) = tokens marks ++ tokens rest :=
  List.filterMap_append

@[simp] theorem tokens_space (rest : List Mark) : tokens (space :: rest) = tokens rest :=
  rfl

@[simp] theorem tokens_punctuator (c : Char) (rest : List Mark) :
    tokens (punctuator c :: rest) = .punctuator c :: tokens rest :=
  rfl

@[simp] theorem tokens_spread (rest : List Mark) :
    tokens (spread :: rest) = .spread :: tokens rest :=
  rfl

@[simp] theorem tokens_word (w : String) (rest : List Mark) :
    tokens (word w :: rest) = .name w :: tokens rest :=
  rfl

@[simp] theorem tokens_leaf (l : Leaf) (rest : List Mark) :
    tokens (leaf l :: rest) = l.token :: tokens rest :=
  rfl

@[simp] theorem tokens_ledBySpaces (items : List (List Mark)) :
    tokens (ledBySpaces items) = items.flatMap tokens :=
  filterMap_ledBySpaces rfl items

@[simp] theorem tokens_spaced (items : List (List Mark)) :
    tokens (spaced items) = items.flatMap tokens :=
  filterMap_spaced rfl items

@[simp] theorem tokens_bracketed (c d : Char) (items : List (List Mark)) :
    tokens (bracketed c d items) =
      .punctuator c :: (items.flatMap tokens ++ [.punctuator d]) := by
  simp [bracketed]

@[simp] theorem tokens_block (items : List (List Mark)) :
    tokens (block items) =
      .punctuator '\x7b' :: (items.flatMap tokens ++ [.punctuator '\x7d']) := by
  simp [block]

@[simp] theorem tokens_labelled (label content : List Mark) :
    tokens (labelled label content) = tokens label ++ .punctuator ':' :: tokens content := by
  simp [labelled]

end Mark

open Reader

/-! ### Values -/

/-- An acceptable enum value is a word that stands for nothing else. -/
theorem Literal.ofWord_of_isAcceptable {value : EnumValue}
    (h : Leaf.IsAcceptable (.enumValue value)) :
    ofWord value.name.text = .enum value := by
  rw [Leaf.IsAcceptable, Leaf.fault?] at h
  by_cases hword : value.name.text ∈ ["true", "false", "null"]
  · by_cases hname : Token.IsName value.name.text.toList <;> simp [hname, hword] at h
  · simp only [List.mem_cons, List.not_mem_nil, or_false, not_or] at hword
    rw [ofWord, if_neg hword.1, if_neg hword.2.1, if_neg hword.2.2]

/-- No value begins with the closing bracket of a list. -/
theorem Value.starts_tokens (value : Value) : Starts [']'] (tokens value.marks) := by
  cases value with
  | string s => exact ⟨_, _, rfl, by simp⟩
  | int n => exact ⟨_, _, rfl, by simp⟩
  | single x => exact ⟨_, _, rfl, by simp [Leaf.token]⟩
  | double x => exact ⟨_, _, rfl, by simp [Leaf.token]⟩
  | boolean b => exact starts_name _ _ _
  | null => exact starts_name _ _ _
  | list items => exact starts_punctuator (by decide) _
  | map entries => exact starts_punctuator (by decide) _
  | object fields => exact starts_punctuator (by decide) _
  | «variable» var => exact starts_punctuator (by decide) _
  | enum value => exact starts_name _ _ _

mutual

/-- A value is taken as its literal. -/
theorem Value.takes : ∀ value : Value, (∀ leaf ∈ value.leaves, leaf.IsAcceptable) →
    Takes Reader.value [] (tokens value.marks) value.literal
  | .string contents, _ => takes_value_string contents
  | .int n, _ => by
    have hint := takes_value_int (String.ofList (Numeral.ofInt n.toInt))
    rwa [String.toList_ofList, Numeral.integer_ofInt] at hint
  | .single _, _ => takes_value_float _
  | .double _, _ => takes_value_float _
  | .boolean true, _ => takes_value_word "true"
  | .boolean false, _ => takes_value_word "false"
  | .null, _ => takes_value_word "null"
  | .list items, h => by
    rw [Value.marks, tokens_bracketed]
    exact takes_value_list (Value.items_of_items items h)
  | .map entries, h => by
    rw [Value.marks, tokens_bracketed]
    exact takes_value_object (Value.items_of_fields entries h)
  | .object fields, h => by
    rw [Value.marks, tokens_bracketed]
    exact takes_value_object (Value.items_of_fields fields h)
  | .variable var, _ => takes_value_variable var.name.text
  | .enum value, h => by
    have hword := takes_value_word value.name.text
    rwa [Literal.ofWord_of_isAcceptable (h _ (List.mem_singleton_self _))] at hword
termination_by structural value => value

theorem Value.items_of_items : ∀ items : List Value,
    (∀ leaf ∈ Value.leavesOfItems items, leaf.IsAcceptable) →
    Items Reader.value [] ']' ((Value.marksOfItems items).flatMap tokens) (Value.literals items)
  | [], _ => .nil
  | item :: rest, h => by
    rw [Value.leavesOfItems, List.forall_mem_append] at h
    exact .cons (Value.takes item h.1) item.starts_tokens (Value.items_of_items rest h.2)
termination_by structural items => items

theorem Value.items_of_fields : ∀ fields : List (Name × Value),
    (∀ leaf ∈ Value.leavesOfFields fields, leaf.IsAcceptable) →
    Items (fun fuel => named (Reader.value fuel)) [] '\x7d'
      ((Value.marksOfFields fields).flatMap tokens) (Value.literalFields fields)
  | [], _ => .nil
  | (name, value) :: rest, h => by
    rw [Value.leavesOfFields, List.forall_mem_cons, List.forall_mem_append] at h
    have hfield := takes_named (Value.takes value h.2.1) name.text
    exact .cons hfield (starts_name _ _ _) (Value.items_of_fields rest h.2.2)
termination_by structural fields => fields

end

/-! ### Arguments and directives -/

theorem Arguments.items_of_arguments (items : List (Argument Value))
    (h : ∀ leaf ∈ items.flatMap Argument.leaves, leaf.IsAcceptable) :
    Items (fun fuel => named (Reader.value fuel)) [] ')'
      ((items.map Argument.marks).flatMap tokens)
      (items.map fun argument => (argument.name, argument.value.literal)) := by
  induction items with
  | nil => exact .nil
  | cons argument rest ih =>
      rw [List.flatMap_cons, List.forall_mem_append, Argument.leaves, List.forall_mem_cons] at h
      have hfirst := takes_named (argument.value.takes h.1.2) argument.name.text
      rw [List.map_cons, List.map_cons, List.flatMap_cons, Argument.marks, tokens_labelled]
      exact .cons hfirst (starts_name _ _ _) (ih h.2)

theorem Arguments.takesPart (arguments : Arguments Value)
    (h : ∀ leaf ∈ arguments.leaves, leaf.IsAcceptable) :
    TakesPart Reader.arguments '(' ['('] (tokens arguments.marks)
      (arguments.map Value.literal) := by
  have hmap : arguments.map Value.literal = Arguments.ofPairs
      (arguments.items.map fun argument => (argument.name, argument.value.literal)) := by
    rw [Arguments.map, Arguments.ofPairs, List.map_map]
    rfl
  rw [hmap]
  apply takesPart_arguments
  obtain ⟨items⟩ := arguments
  have hitems := items_of_arguments items h
  cases items with
  | nil => exact takesPart_parenthesized?_nil
  | cons argument rest =>
      rw [Arguments.marks, if_neg (by simp [isEmpty]), tokens_bracketed]
      exact takesPart_parenthesized? hitems List.not_mem_nil (by simp)

theorem Directive.takesPart (directives : List (Directive Value))
    (h : ∀ leaf ∈ leavesOfAll directives, leaf.IsAcceptable) :
    TakesPart Reader.directives '@' ['@', '('] (tokens (marksOfAll directives))
      (directives.map (Directive.map Value.literal)) := by
  rw [marksOfAll, tokens_ledBySpaces]
  induction directives with
  | nil => exact takesPart_directives_nil
  | cons directive rest ih =>
      rw [leavesOfAll, List.flatMap_cons, List.forall_mem_append, leaves,
        List.forall_mem_cons] at h
      exact takesPart_directives_cons directive.name.text
        (directive.arguments.takesPart h.1.2) (ih h.2)

/-! ### Selections -/

theorem Field.tokens_nameMarks (aliasName : Option Name) (name : Name) :
    tokens (nameMarks aliasName name) = fieldNameTokens aliasName name := by
  cases aliasName with
  | none => rfl
  | some given => rfl

theorem InlineFragment.tokens_conditionMarks (typeCondition : Option Name) :
    tokens (conditionMarks typeCondition) = conditionTokens typeCondition := by
  cases typeCondition with
  | none => rfl
  | some type => rfl

theorem FragmentName.ne_on_of_isAcceptable {name : FragmentName}
    (h : Leaf.IsAcceptable (.fragmentName name)) : name.name.text ≠ "on" := by
  intro hon
  rw [Leaf.IsAcceptable, Leaf.fault?, if_pos hon] at h
  by_cases hname : Token.IsName name.name.text.toList <;> simp [hname] at h

theorem FragmentSpread.takes (spread : FragmentSpread Value)
    (h : ∀ leaf ∈ spread.leaves, leaf.IsAcceptable) :
    Takes Reader.selection selectionStops (tokens spread.marks)
      (.spread (spread.map Value.literal)) := by
  rw [leaves, List.forall_mem_cons] at h
  exact takes_selection_spread (FragmentName.ne_on_of_isAcceptable h.1)
    (Directive.takesPart spread.directives h.2)

/-- A selection begins with a name or with three dots. -/
theorem Selection.starts_tokens (selection : Selection Value) :
    Starts ('\x7d' :: selectionStops) (tokens selection.marks) := by
  cases selection with
  | field f =>
      obtain ⟨aliasName, name, arguments, directives, set⟩ := f
      obtain ⟨text, us, hname⟩ := exists_fieldNameTokens aliasName name
      rw [Selection.marks, Field.marks, tokens_append, Field.tokens_nameMarks, hname]
      exact starts_name _ _ _
  | spread s => exact ⟨_, _, rfl, by simp⟩
  | inlineFragment f =>
      obtain ⟨typeCondition, directives, set⟩ := f
      exact ⟨_, _, rfl, by simp⟩

/-- A selection set begins with a brace. -/
theorem SelectionSet.head?_tokens (set : SelectionSet Value) :
    (tokens set.marks).head? = some (.punctuator '\x7b') := by
  obtain ⟨selections⟩ := set
  rfl

mutual

/-- A field is taken as itself, up to its values. -/
theorem Field.takes : ∀ field : Field Value, (∀ leaf ∈ field.leaves, leaf.IsAcceptable) →
    Takes Reader.selection selectionStops (tokens field.marks)
      (.field (field.map Value.literal))
  | ⟨aliasName, name, arguments, directives, ⟨selections⟩⟩, h => by
    simp only [Field.leaves, List.forall_mem_append, List.forall_mem_cons] at h
    obtain ⟨-, -, harguments, hdirectives, hselections⟩ := h
    have hset : TakesPart (fun fuel => selectionSet? (Reader.selection fuel) fuel) '\x7b' ['\x7b']
        (tokens (if (⟨selections⟩ : SelectionSet Value).isEmpty then []
          else space :: SelectionSet.marks ⟨selections⟩))
        (SelectionSet.map Value.literal ⟨selections⟩) := by
      have hitems := SelectionSet.items_of_selections selections hselections
      cases selections with
      | nil => exact takesPart_selectionSet?_nil
      | cons selection rest =>
          rw [if_neg (by simp [SelectionSet.isEmpty]), tokens_space, SelectionSet.marks,
            tokens_block]
          exact takesPart_selectionSet? hitems
    rw [Field.marks, tokens_append, tokens_append, tokens_append, Field.tokens_nameMarks]
    exact takes_selection_field aliasName name (arguments.takesPart harguments)
      (Directive.takesPart directives hdirectives) hset
termination_by structural field => field

theorem InlineFragment.takes : ∀ fragment : InlineFragment Value,
    (∀ leaf ∈ fragment.leaves, leaf.IsAcceptable) →
    Takes Reader.selection selectionStops (tokens fragment.marks)
      (.inlineFragment (fragment.map Value.literal))
  | ⟨typeCondition, directives, set⟩, h => by
    simp only [InlineFragment.leaves, List.forall_mem_append] at h
    rw [InlineFragment.marks, tokens_spread, tokens_append, tokens_append, tokens_space,
      InlineFragment.tokens_conditionMarks]
    exact takes_selection_inlineFragment typeCondition (Directive.takesPart directives h.2.1)
      (SelectionSet.takes set h.2.2) set.head?_tokens
termination_by structural fragment => fragment

theorem Selection.takes : ∀ selection : Selection Value,
    (∀ leaf ∈ selection.leaves, leaf.IsAcceptable) →
    Takes Reader.selection selectionStops (tokens selection.marks)
      (selection.map Value.literal)
  | .field f, h => Field.takes f h
  | .spread s, h => s.takes h
  | .inlineFragment f, h => InlineFragment.takes f h
termination_by structural selection => selection

theorem SelectionSet.takes : ∀ set : SelectionSet Value,
    (∀ leaf ∈ set.leaves, leaf.IsAcceptable) →
    Takes (fun fuel => selectionSet (Reader.selection fuel) fuel) [] (tokens set.marks)
      (set.map Value.literal)
  | ⟨selections⟩, h => by
    rw [SelectionSet.marks, tokens_block]
    exact takes_selectionSet (SelectionSet.items_of_selections selections h)
termination_by structural set => set

theorem SelectionSet.items_of_selections : ∀ selections : List (Selection Value),
    (∀ leaf ∈ SelectionSet.leavesOfAll selections, leaf.IsAcceptable) →
    Items Reader.selection selectionStops '\x7d'
      ((SelectionSet.marksOfAll selections).flatMap tokens)
      (SelectionSet.mapList Value.literal selections)
  | [], _ => .nil
  | selection :: rest, h => by
    rw [SelectionSet.leavesOfAll, List.forall_mem_append] at h
    exact .cons (Selection.takes selection h.1) selection.starts_tokens
      (SelectionSet.items_of_selections rest h.2)
termination_by structural selections => selections

end

/-! ### Types -/

/-- A type begins with a name or with a bracket. -/
theorem TypeReference.starts_tokens (type : TypeReference) :
    Starts [']', '!'] (tokens type.marks) := by
  cases type with
  | named name => exact starts_name _ _ _
  | list items => exact starts_punctuator (by decide) _
  | nonNull inner =>
      cases inner with
      | named name => exact starts_name _ _ _
      | list items => exact starts_punctuator (by decide) _

mutual

/-- A type is taken as itself. -/
theorem TypeReference.takes : ∀ type : TypeReference,
    Takes Reader.typeReference ['!'] (tokens type.marks) type
  | .named name => takes_typeReference_nullable (takesNullable_named name.text)
  | .list items => by
    rw [TypeReference.marks, tokens_bracketed]
    exact takes_typeReference_nullable
      (takesNullable_list (TypeReference.items_of_types items))
  | .nonNull inner => NonNullType.takes inner
termination_by structural type => type

theorem NonNullType.takes : ∀ type : NonNullType,
    Takes Reader.typeReference ['!'] (tokens type.marks) (.nonNull type)
  | .named name => takes_typeReference_nonNull (takesNullable_named name.text)
  | .list items => by
    rw [NonNullType.marks, tokens_append, tokens_bracketed]
    exact takes_typeReference_nonNull
      (takesNullable_list (TypeReference.items_of_types items))
termination_by structural type => type

theorem TypeReference.items_of_types : ∀ items : List TypeReference,
    Items Reader.typeReference ['!'] ']' ((TypeReference.marksOfAll items).flatMap tokens) items
  | [] => .nil
  | item :: rest =>
    .cons (TypeReference.takes item) item.starts_tokens (TypeReference.items_of_types rest)
termination_by structural items => items

end

/-! ### Definitions -/

theorem VariableDefinition.takes (definition : VariableDefinition Value)
    (h : ∀ leaf ∈ definition.leaves, leaf.IsAcceptable) :
    Takes Reader.variableDefinition variableStops (tokens definition.marks)
      (definition.map Value.literal) := by
  obtain ⟨var, type, defaultValue⟩ := definition
  simp only [leaves, List.forall_mem_append, List.forall_mem_cons] at h
  have hdefault : TakesDefault (tokens (defaultMarks defaultValue))
      (defaultValue.map Value.literal) := by
    cases defaultValue with
    | none => exact .none
    | some value => exact .some (value.takes fun leaf hleaf => h.2.2 leaf (by simpa using hleaf))
  rw [marks, tokens_append, tokens_labelled]
  exact takes_variableDefinition var.name.text type.takes hdefault

theorem Operation.items_of_variables (definitions : List (VariableDefinition Value))
    (h : ∀ leaf ∈ definitions.flatMap VariableDefinition.leaves, leaf.IsAcceptable) :
    Items Reader.variableDefinition variableStops ')'
      ((definitions.map VariableDefinition.marks).flatMap tokens)
      (definitions.map (VariableDefinition.map Value.literal)) := by
  induction definitions with
  | nil => exact .nil
  | cons definition rest ih =>
      rw [List.flatMap_cons, List.forall_mem_append] at h
      exact .cons (definition.takes h.1) (starts_punctuator (by decide) _) (ih h.2)

theorem Operation.takesPart_variables (definitions : List (VariableDefinition Value))
    (h : ∀ leaf ∈ definitions.flatMap VariableDefinition.leaves, leaf.IsAcceptable) :
    TakesPart (fun fuel => parenthesized? (Reader.variableDefinition fuel) fuel) '(' ['(']
      (tokens (variableMarks definitions))
      (definitions.map (VariableDefinition.map Value.literal)) := by
  have hitems := items_of_variables definitions h
  cases definitions with
  | nil => exact takesPart_parenthesized?_nil
  | cons definition rest =>
      rw [variableMarks, if_neg (by simp), tokens_bracketed]
      exact takesPart_parenthesized? hitems (by decide) (by simp)

theorem Operation.tokens_nameMarks (name? : Option Name) :
    tokens (nameMarks name?) = operationNameTokens name? := by
  cases name? with
  | none => rfl
  | some name => rfl

theorem OperationType.operationType?_keyword (type : OperationType) :
    operationType? type.keyword = some type := by
  cases type with
  | query => rfl
  | mutation => rfl
  | subscription => rfl

/-- An operation is taken as itself without an empty name, up to its values. -/
theorem Operation.takes (operation : Operation Value)
    (h : ∀ leaf ∈ operation.leaves, leaf.IsAcceptable) :
    Takes Reader.definition [] (tokens operation.marks)
      (.operation (operation.dropEmptyName.map Value.literal)) := by
  simp only [leaves, List.forall_mem_append] at h
  obtain ⟨-, hvariables, hdirectives, hset⟩ := h
  rw [marks, tokens_word, tokens_append, tokens_append, tokens_append, tokens_space,
    tokens_nameMarks]
  exact takes_definition_operation operation.type.operationType?_keyword operation.writtenName?
    (takesPart_variables operation.variableDefinitions hvariables)
    (Directive.takesPart operation.directives hdirectives)
    (operation.selectionSet.takes hset) operation.selectionSet.head?_tokens

theorem FragmentDefinition.takes (definition : FragmentDefinition Value)
    (h : ∀ leaf ∈ definition.leaves, leaf.IsAcceptable) :
    Takes Reader.definition [] (tokens definition.marks)
      (.fragment (definition.map Value.literal)) := by
  simp only [leaves, List.forall_mem_append, List.forall_mem_cons] at h
  obtain ⟨hname, -, hdirectives, hset⟩ := h
  simp only [marks, tokens_word, tokens_space, tokens_leaf, tokens_append]
  exact takes_definition_fragment (FragmentName.ne_on_of_isAcceptable hname)
    definition.typeCondition (Directive.takesPart definition.directives hdirectives)
    (definition.selectionSet.takes hset) definition.selectionSet.head?_tokens

theorem Definition.takes (definition : Definition Value)
    (h : ∀ leaf ∈ definition.leaves, leaf.IsAcceptable) :
    Takes Reader.definition [] (tokens definition.marks) definition.normalForm := by
  cases definition with
  | operation op => exact op.takes h
  | fragment frag => exact frag.takes h

/-- A definition begins with a keyword. -/
theorem Definition.starts_tokens (definition : Definition Value) :
    Starts ['\x7d'] (tokens definition.marks) := by
  cases definition with
  | operation op => exact starts_name _ _ _
  | fragment frag => exact starts_name _ _ _

theorem Document.items_of_definitions (definitions : List (Definition Value))
    (h : ∀ leaf ∈ definitions.flatMap Definition.leaves, leaf.IsAcceptable) :
    Items Reader.definition [] '\x7d' ((definitions.map Definition.marks).flatMap tokens)
      (definitions.map Definition.normalForm) := by
  induction definitions with
  | nil => exact .nil
  | cons definition rest ih =>
      rw [List.flatMap_cons, List.forall_mem_append] at h
      exact .cons (definition.takes h.1) definition.starts_tokens (ih h.2)

/-! ### Texts -/

/-- The text of a node consists of the tokens of its marks, and its leaves are acceptable. -/
theorem Node.lex_of_print {node : Node} {text : String} (hphrase : Phrase node.marks)
    (h : node.print = .ok text) :
    (∀ leaf ∈ node.leaves, leaf.IsAcceptable) ∧
      Token.lex text.toList = some (tokens node.marks) := by
  obtain ⟨-, hfault, rfl⟩ := Node.print_eq_ok_iff.mp h
  constructor
  · rw [Node.firstFault?_marks, List.findSome?_eq_none_iff] at hfault
    exact hfault
  · rw [String.toList_ofList]
    have hspaced := hphrase.spaced continues_nil
    rw [List.append_nil] at hspaced
    exact lex_flatMap_text hspaced hfault

/-- The text of a value is read as its literal. -/
theorem Value.read?_eq_literal_of_print {value : Value} {text : String}
    (h : (Node.value value).print = .ok text) : Literal.read? text = some value.literal := by
  have hphrase : Phrase (Node.value value).marks := value.phrase
  obtain ⟨hleaves, hlex⟩ := Node.lex_of_print hphrase h
  exact Literal.read?_of_takes hlex (value.takes hleaves)

/-! ### Documents -/

/-- The text of a document consists of the tokens of its marks, and its leaves are acceptable. -/
theorem Document.lex_of_print {document : Document Value} {text : String}
    (h : (Node.document document).print = .ok text) :
    document.definitions ≠ [] ∧ (∀ leaf ∈ document.leaves, leaf.IsAcceptable) ∧
      Token.lex text.toList = some (tokens document.marks) := by
  have hne : document.definitions ≠ [] := by
    intro hnil
    obtain ⟨definitions⟩ := document
    have hempty := congrArg (fun ds => Node.document ⟨ds⟩) hnil
    exact (Node.print_eq_ok_iff.mp h).1 hempty
  have hphrase : Phrase (Node.document document).marks := phrase hne
  exact ⟨hne, Node.lex_of_print hphrase h⟩

/-- The text of a document is read as the normal form of the document, and no document with another
normal form has the same text. -/
theorem Document.read?_of_print {document : Document Value} {text : String}
    (h : (Node.document document).print = .ok text) :
    Document.read? text = some document.normalForm ∧
      ∀ other : Document Value, (Node.document other).print = .ok text →
        other.normalForm = document.normalForm := by
  have hread : ∀ d : Document Value, (Node.document d).print = .ok text →
      Document.read? text = some d.normalForm := by
    intro d hprint
    obtain ⟨hne, hleaves, hlex⟩ := lex_of_print hprint
    have hitems := items_of_definitions d.definitions hleaves
    rw [marks, tokens_spaced] at hlex
    exact read?_of_items hlex hitems (by simpa using hne)
  refine ⟨hread document h, ?_⟩
  intro other hother
  have hsame := hread other hother
  rw [hread document h] at hsame
  exact (Option.some.inj hsame).symm

/-- A document in which a map holds a string of quotes and a backslash, a field under an alias is
called `on`, an inline fragment selects nothing and the name of the operation is the empty text. -/
theorem Document.read?_of_print_nested :
    let set : SelectionSet Value := ⟨[
      .field { aliasName := some ⟨"a"⟩, name := ⟨"on"⟩, selectionSet := ⟨[]⟩ },
      .inlineFragment { selectionSet := ⟨[]⟩ }]⟩
    let default : Value := .map [(⟨"k"⟩, .list [.string "\"\"\\", .enum ⟨⟨"on"⟩⟩, .int (-3)])]
    let document : Document Value := ⟨[.operation {
      type := .query
      name := some ⟨""⟩
      variableDefinitions := [⟨⟨⟨"v"⟩⟩, .nonNull (.list [.named ⟨"T"⟩]), some default⟩]
      selectionSet := set }]⟩
    let text := "query($v: [T]! = \x7bk: [\"\\\"\\\"\\\\\" on -3]\x7d) \x7b a: on ... \x7b \x7d \x7d"
    (Node.document document).print = .ok text ∧
      Document.read? text = some document.normalForm := by
  intro set default document text
  have hprint : (Node.document document).print = .ok text := by decide +kernel
  exact ⟨hprint, (Document.read?_of_print hprint).1⟩

end GraphQLText

import GraphQLText.Printing.Node
import GraphQLText.Proofs.Printing.Mark

/-!
# The layout of a node

The marks of each kind of node, and the fact that its printer writes them.  A document without
definitions is the one node that this leaves out: it has no marks, but its printer refuses it.
-/

namespace GraphQLText

open Mark

/-! ## The marks of each node -/

mutual

/-- The marks of a value. -/
def Value.marks : Value → List Mark
  | .string contents => [.string contents]
  | .int n => [.int n]
  | .single x => [leaf (.number x)]
  | .double x => [leaf (.number x)]
  | .boolean b => [word (if b then "true" else "false")]
  | .null => [word "null"]
  | .list items => bracketed '[' ']' (Value.marksOfItems items)
  | .map entries => bracketed '\x7b' '\x7d' (Value.marksOfFields entries)
  | .object fields => bracketed '\x7b' '\x7d' (Value.marksOfFields fields)
  | .variable var => [punctuator '$', leaf (.name var.name)]
  | .enum value => [leaf (.enumValue value)]
termination_by structural value => value

def Value.marksOfItems : List Value → List (List Mark)
  | [] => []
  | item :: rest => item.marks :: Value.marksOfItems rest
termination_by structural items => items

def Value.marksOfFields : List (Name × Value) → List (List Mark)
  | [] => []
  | (name, value) :: rest =>
    labelled [leaf (.name name)] value.marks :: Value.marksOfFields rest
termination_by structural fields => fields

end

def Argument.marks (argument : Argument Value) : List Mark :=
  labelled [leaf (.name argument.name)] argument.value.marks

/-- The marks of arguments, of which there are none if the arguments are empty. -/
def Arguments.marks (arguments : Arguments Value) : List Mark :=
  if arguments.isEmpty then []
  else bracketed '(' ')' (arguments.items.map Argument.marks)

def Directive.marks (directive : Directive Value) : List Mark :=
  punctuator '@' :: leaf (.name directive.name) :: directive.arguments.marks

def Directive.marksOfAll (directives : List (Directive Value)) : List Mark :=
  ledBySpaces (directives.map Directive.marks)

def FragmentSpread.marks (spread : FragmentSpread Value) : List Mark :=
  .spread :: space :: leaf (.fragmentName spread.name) ::
    Directive.marksOfAll spread.directives

def Field.nameMarks (aliasName : Option Name) (name : Name) : List Mark :=
  match aliasName with
  | some given => labelled [leaf (.name given)] [leaf (.name name)]
  | none => [leaf (.name name)]

def InlineFragment.conditionMarks (typeCondition : Option Name) : List Mark :=
  match typeCondition with
  | some type => [space, word "on", space, leaf (.name type)]
  | none => []

mutual

def Field.marks : Field Value → List Mark
  | ⟨aliasName, name, arguments, directives, set⟩ =>
    Field.nameMarks aliasName name ++ (arguments.marks ++
      (Directive.marksOfAll directives ++
        (if set.isEmpty then [] else space :: SelectionSet.marks set)))
termination_by structural field => field

def InlineFragment.marks : InlineFragment Value → List Mark
  | ⟨typeCondition, directives, set⟩ =>
    .spread :: (InlineFragment.conditionMarks typeCondition ++
      (Directive.marksOfAll directives ++ space :: SelectionSet.marks set))
termination_by structural fragment => fragment

def Selection.marks : Selection Value → List Mark
  | .field f => Field.marks f
  | .spread s => s.marks
  | .inlineFragment f => InlineFragment.marks f
termination_by structural selection => selection

def SelectionSet.marks : SelectionSet Value → List Mark
  | ⟨selections⟩ => block (SelectionSet.marksOfAll selections)
termination_by structural set => set

def SelectionSet.marksOfAll : List (Selection Value) → List (List Mark)
  | [] => []
  | selection :: rest => Selection.marks selection :: SelectionSet.marksOfAll rest
termination_by structural selections => selections

end

mutual

def TypeReference.marks : TypeReference → List Mark
  | .named name => [leaf (.name name)]
  | .list items => bracketed '[' ']' (TypeReference.marksOfAll items)
  | .nonNull inner => NonNullType.marks inner
termination_by structural type => type

def NonNullType.marks : NonNullType → List Mark
  | .named name => [leaf (.name name), punctuator '!']
  | .list items => bracketed '[' ']' (TypeReference.marksOfAll items) ++ [punctuator '!']
termination_by structural type => type

def TypeReference.marksOfAll : List TypeReference → List (List Mark)
  | [] => []
  | item :: rest => TypeReference.marks item :: TypeReference.marksOfAll rest
termination_by structural items => items

end

def VariableDefinition.defaultMarks (defaultValue : Option Value) : List Mark :=
  match defaultValue with
  | some value => space :: punctuator '=' :: space :: value.marks
  | none => []

def VariableDefinition.marks (definition : VariableDefinition Value) : List Mark :=
  labelled [punctuator '$', leaf (.name definition.var.name)] definition.type.marks ++
    VariableDefinition.defaultMarks definition.defaultValue

/-- The marks of the name of an operation, which may be missing. -/
def Operation.nameMarks (name? : Option Name) : List Mark :=
  match name? with
  | some name => [space, leaf (.name name)]
  | none => []

def Operation.variableMarks (definitions : List (VariableDefinition Value)) : List Mark :=
  if definitions.isEmpty then []
  else bracketed '(' ')' (definitions.map VariableDefinition.marks)

def Operation.marks (operation : Operation Value) : List Mark :=
  word operation.type.keyword :: (Operation.nameMarks operation.writtenName? ++
    (Operation.variableMarks operation.variableDefinitions ++
      (Directive.marksOfAll operation.directives ++
        space :: operation.selectionSet.marks)))

def FragmentDefinition.marks (definition : FragmentDefinition Value) : List Mark :=
  word "fragment" :: space :: leaf (.fragmentName definition.name) ::
    space :: word "on" :: space :: leaf (.name definition.typeCondition) ::
      (Directive.marksOfAll definition.directives ++
        space :: definition.selectionSet.marks)

def Definition.marks : Definition Value → List Mark
  | .operation op => op.marks
  | .fragment frag => frag.marks

def Document.marks (document : Document Value) : List Mark :=
  spaced (document.definitions.map Definition.marks)

/-- The marks of a node. -/
def Node.marks : Node → List Mark
  | .name n => [leaf (.name n)]
  | .fragmentName n => [leaf (.fragmentName n)]
  | .enumValue v => [leaf (.enumValue v)]
  | .variable v => [punctuator '$', leaf (.name v.name)]
  | .value v => v.marks
  | .objectValue o => bracketed '\x7b' '\x7d' (Value.marksOfFields o.fields)
  | .argument a => a.marks
  | .arguments as => as.marks
  | .directive d => d.marks
  | .typeReference t => t.marks
  | .nonNullType t => t.marks
  | .variableDefinition d => d.marks
  | .field f => f.marks
  | .selection s => s.marks
  | .selectionSet s => s.marks
  | .fragmentSpread s => s.marks
  | .inlineFragment f => f.marks
  | .fragmentDefinition d => d.marks
  | .operationType t => [word t.keyword]
  | .operation o => o.marks
  | .definition d => d.marks
  | .document d => d.marks

/-! ## Printers write the marks of their nodes -/

open Printer

theorem Name.eq_mk_iff {name : Name} {text : String} :
    name = ⟨text⟩ ↔ name.text = text := by
  rw [Name.mk.injEq]

theorem Name.check_eq_outcome (name : Name) :
    name.check = outcome [leaf (.name name)] := by
  rw [outcome_leaf, check, Leaf.fault?]
  by_cases hname : Token.IsName name.text.toList
  · rw [if_pos hname, if_pos (name.isValid_iff_isName.mpr hname)]
  · rw [if_neg hname, if_neg (fun h => hname (name.isValid_iff_isName.mp h))]

/-- A check that goes on after that of a name finds what the name is refused for first. -/
theorem Name.check_bind_eq {name : Name} {next : Except Fault Unit} {l : Leaf}
    (hinvalid : ¬ Token.IsName name.text.toList →
      l.fault? = some (.invalidName name.text))
    (hvalid : Token.IsName name.text.toList → next = outcome [leaf l]) :
    (do name.check; next) = outcome [leaf l] := by
  rw [check_eq_outcome, outcome_leaf, Leaf.fault?]
  by_cases hname : Token.IsName name.text.toList
  · rw [if_pos hname]
    exact hvalid hname
  · rw [if_neg hname, outcome_leaf, hinvalid hname]
    rfl

theorem FragmentName.check_eq_outcome (fragment : FragmentName) :
    fragment.check = outcome [leaf (.fragmentName fragment)] := by
  apply Name.check_bind_eq
  · intro hname
    rw [Leaf.fault?, if_pos hname]
  · intro hname
    have hreserved : fragment.name = reserved ↔ fragment.name.text = "on" :=
      Name.eq_mk_iff
    rw [outcome_leaf, Leaf.fault?, if_neg (not_not_intro hname)]
    by_cases hon : fragment.name.text = "on"
    · rw [if_pos hon, if_pos (hreserved.mpr hon)]
    · rw [if_neg hon, if_neg (fun h => hon (hreserved.mp h))]
      rfl

theorem EnumValue.check_eq_outcome (value : EnumValue) :
    value.check = outcome [leaf (.enumValue value)] := by
  apply Name.check_bind_eq
  · intro hname
    rw [Leaf.fault?, if_pos hname]
  · intro hname
    have hreserved : value.name ∈ reserved ↔
        value.name.text ∈ ["true", "false", "null"] := by
      simp only [reserved, List.mem_cons, List.not_mem_nil, or_false, Name.eq_mk_iff]
    rw [outcome_leaf, Leaf.fault?, if_neg (not_not_intro hname)]
    by_cases hword : value.name.text ∈ ["true", "false", "null"]
    · rw [if_pos hword, if_pos (hreserved.mpr hword)]
    · rw [if_neg hword, if_neg (fun h => hword (hreserved.mp h))]
      rfl

theorem Name.printer_writes (name : Name) :
    name.printer.Writes [leaf (.name name)] :=
  Writes.require name.check_eq_outcome rfl

theorem FragmentName.printer_writes (fragment : FragmentName) :
    fragment.printer.Writes [leaf (.fragmentName fragment)] :=
  Writes.require fragment.check_eq_outcome rfl

theorem EnumValue.printer_writes (value : EnumValue) :
    value.printer.Writes [leaf (.enumValue value)] :=
  Writes.require value.check_eq_outcome rfl

theorem Variable.printer_writes (var : Variable) :
    var.printer.Writes [punctuator '$', leaf (.name var.name)] := by
  have hdollar : Writes (put "$") [punctuator '$'] := .put rfl rfl
  exact hdollar.seq var.name.printer_writes

/-- A number is refused unless it is finite. -/
theorem Binary.printer_writes {f : BinaryFormat} (x : Binary f) :
    x.printer.Writes [leaf (.number x)] := by
  intro text
  rw [outcome_leaf, Leaf.fault?, printer, nonFinite?]
  by_cases hfinite : x.isFinite = true
  · simp [written, Leaf.fault?, hfinite, putChars, Mark.text, Leaf.text]
  · by_cases hnan : x.isNaN = true
    · simp [written, Leaf.fault?, hfinite, hnan]
    · by_cases hnegative : x.isNegative = true
      · simp [written, Leaf.fault?, hfinite, hnan, hnegative]
      · simp [written, Leaf.fault?, hfinite, hnan, hnegative]

theorem writes_putChars {cs : List Char} {mark : Mark} (hfault : mark.fault? = none)
    (htext : cs = mark.text) : Writes (putChars cs) [mark] := by
  apply Writes.put
  · simp [hfault]
  · simp [htext]

mutual

/-- A value is written by its marks. -/
theorem Value.printer_writes : ∀ value : Value, value.printer.Writes value.marks
  | .string _ => writes_putChars rfl rfl
  | .int _ => writes_putChars rfl rfl
  | .single x => x.printer_writes
  | .double x => x.printer_writes
  | .boolean true => .put rfl rfl
  | .boolean false => .put rfl rfl
  | .null => .put rfl rfl
  | .list items => .bracketed rfl rfl (Value.printers_write items)
  | .map entries => .bracketed rfl rfl (Value.fieldPrinters_write entries)
  | .object fields => .bracketed rfl rfl (Value.fieldPrinters_write fields)
  | .variable var => var.printer_writes
  | .enum value => value.printer_writes
termination_by structural value => value

theorem Value.printers_write : ∀ items : List Value,
    List.Forall₂ Writes (Value.printers items) (Value.marksOfItems items)
  | [] => .nil
  | item :: rest => .cons item.printer_writes (Value.printers_write rest)
termination_by structural items => items

theorem Value.fieldPrinters_write : ∀ fields : List (Name × Value),
    List.Forall₂ Writes (Value.fieldPrinters fields) (Value.marksOfFields fields)
  | [] => .nil
  | (name, value) :: rest =>
    .cons (.labelled name.printer_writes value.printer_writes)
      (Value.fieldPrinters_write rest)
termination_by structural fields => fields

end

theorem forall₂_writes_map {α : Type} {print : α → Printer} {marks : α → List Mark}
    (h : ∀ x, (print x).Writes (marks x)) (xs : List α) :
    List.Forall₂ Writes (xs.map print) (xs.map marks) := by
  induction xs with
  | nil => exact .nil
  | cons x xs ih => exact .cons (h x) ih

theorem Argument.printer_writes (argument : Argument Value) :
    argument.printer.Writes argument.marks :=
  .labelled argument.name.printer_writes argument.value.printer_writes

theorem Arguments.printer_writes (arguments : Arguments Value) :
    arguments.printer.Writes arguments.marks := by
  unfold printer marks
  split
  · exact .nil
  · exact .bracketed rfl rfl (forall₂_writes_map Argument.printer_writes _)

theorem Directive.printer_writes (directive : Directive Value) :
    directive.printer.Writes directive.marks := by
  have hsign : Writes (put "@") [punctuator '@'] := .put rfl rfl
  exact hsign.seq (directive.name.printer_writes.seq directive.arguments.printer_writes)

theorem Directive.printAll_writes (directives : List (Directive Value)) :
    (printAll directives).Writes (marksOfAll directives) :=
  .ledBySpaces (forall₂_writes_map printer_writes directives)

theorem FragmentSpread.printer_writes (spread : FragmentSpread Value) :
    spread.printer.Writes spread.marks := by
  have hdots : Writes (put "... ") [.spread, space] := .put rfl rfl
  exact hdots.seq (spread.name.printer_writes.seq
    (Directive.printAll_writes spread.directives))

/-- What is written after a space. -/
theorem writes_put_space_seq {p : Printer} {ms : List Mark} (h : p.Writes ms) :
    Writes (do put " "; p) (space :: ms) := by
  have hspace : Writes (put " ") [space] := .put rfl rfl
  exact hspace.seq h

mutual

theorem Field.printer_writes : ∀ field : Field Value, field.printer.Writes field.marks
  | ⟨aliasName, name, arguments, directives, set⟩ => by
    have hset := writes_put_space_seq (SelectionSet.printer_writes set)
    have hblock : Writes (if set.isEmpty then pure ()
        else do put " "; SelectionSet.printer set)
        (if set.isEmpty then [] else space :: set.marks) := by
      split
      · exact .nil
      · exact hset
    have hrest := arguments.printer_writes.seq
      ((Directive.printAll_writes directives).seq hblock)
    cases aliasName with
    | none => exact name.printer_writes.seq hrest
    | some given =>
        exact (Writes.labelled given.printer_writes name.printer_writes).seq hrest
termination_by structural field => field

theorem InlineFragment.printer_writes : ∀ fragment : InlineFragment Value,
    fragment.printer.Writes fragment.marks
  | ⟨typeCondition, directives, set⟩ => by
    have hdots : Writes (put "...") [.spread] := .put rfl rfl
    have hset := writes_put_space_seq (SelectionSet.printer_writes set)
    have hrest := (Directive.printAll_writes directives).seq hset
    cases typeCondition with
    | none => exact hdots.seq hrest
    | some type =>
        have hon : Writes (put " on ") [space, word "on", space] := .put rfl rfl
        exact hdots.seq (hon.seq (type.printer_writes.seq hrest))
termination_by structural fragment => fragment

/-- A selection is written by its marks. -/
theorem Selection.printer_writes : ∀ selection : Selection Value,
    selection.printer.Writes selection.marks
  | .field f => Field.printer_writes f
  | .spread s => s.printer_writes
  | .inlineFragment f => InlineFragment.printer_writes f
termination_by structural selection => selection

/-- A selection set is written by its marks. -/
theorem SelectionSet.printer_writes : ∀ set : SelectionSet Value,
    set.printer.Writes set.marks
  | ⟨selections⟩ => .block (SelectionSet.printers_write selections)
termination_by structural set => set

theorem SelectionSet.printers_write : ∀ selections : List (Selection Value),
    List.Forall₂ Writes (SelectionSet.printers selections)
      (SelectionSet.marksOfAll selections)
  | [] => .nil
  | selection :: rest =>
    .cons (Selection.printer_writes selection) (SelectionSet.printers_write rest)
termination_by structural selections => selections

end

mutual

/-- A type is written by its marks. -/
theorem TypeReference.printer_writes : ∀ type : TypeReference,
    type.printer.Writes type.marks
  | .named name => name.printer_writes
  | .list items => .bracketed rfl rfl (TypeReference.printers_write items)
  | .nonNull inner => NonNullType.printer_writes inner
termination_by structural type => type

/-- A non-null type is written by its marks. -/
theorem NonNullType.printer_writes : ∀ type : NonNullType, type.printer.Writes type.marks
  | .named name => name.printer_writes.seq (.put rfl rfl)
  | .list items =>
    (Writes.bracketed rfl rfl (TypeReference.printers_write items)).seq (.put rfl rfl)
termination_by structural type => type

theorem TypeReference.printers_write : ∀ items : List TypeReference,
    List.Forall₂ Writes (TypeReference.printers items) (TypeReference.marksOfAll items)
  | [] => .nil
  | item :: rest =>
    .cons (TypeReference.printer_writes item) (TypeReference.printers_write rest)
termination_by structural items => items

end

theorem VariableDefinition.printer_writes (definition : VariableDefinition Value) :
    definition.printer.Writes definition.marks := by
  obtain ⟨var, type, defaultValue⟩ := definition
  have hlabelled := Writes.labelled var.printer_writes type.printer_writes
  cases defaultValue with
  | none => exact hlabelled.seq .nil
  | some value =>
      have hequals : Writes (put " = ") [space, punctuator '=', space] := .put rfl rfl
      exact hlabelled.seq (hequals.seq value.printer_writes)

theorem OperationType.printer_writes (type : OperationType) :
    type.printer.Writes [word type.keyword] := by
  apply Writes.put rfl
  simp [Mark.text]

theorem Operation.printer_writes (operation : Operation Value) :
    operation.printer.Writes operation.marks := by
  have hset := writes_put_space_seq operation.selectionSet.printer_writes
  have hdirectives := (Directive.printAll_writes operation.directives).seq hset
  have hvariables : Writes
      (Printer.bracketed "(" ")" (operation.variableDefinitions.map VariableDefinition.printer))
      (Mark.bracketed '(' ')' (operation.variableDefinitions.map VariableDefinition.marks)) :=
    .bracketed rfl rfl (forall₂_writes_map VariableDefinition.printer_writes _)
  unfold printer marks variableMarks
  apply operation.type.printer_writes.seq
  cases operation.writtenName? with
  | none =>
      by_cases hempty : operation.variableDefinitions.isEmpty = true
      · simp only [hempty, if_true]
        exact hdirectives
      · simp only [hempty]
        exact hvariables.seq hdirectives
  | some name =>
      by_cases hempty : operation.variableDefinitions.isEmpty = true
      · simp only [hempty, if_true]
        exact writes_put_space_seq (name.printer_writes.seq hdirectives)
      · simp only [hempty]
        exact writes_put_space_seq
          (name.printer_writes.seq (hvariables.seq hdirectives))

theorem FragmentDefinition.printer_writes (definition : FragmentDefinition Value) :
    definition.printer.Writes definition.marks := by
  have hfragment : Writes (put "fragment ") [word "fragment", space] := .put rfl rfl
  have hon : Writes (put " on ") [space, word "on", space] := .put rfl rfl
  have hset := writes_put_space_seq definition.selectionSet.printer_writes
  have hdirectives := (Directive.printAll_writes definition.directives).seq hset
  exact hfragment.seq (definition.name.printer_writes.seq
    (hon.seq (definition.typeCondition.printer_writes.seq hdirectives)))

theorem Definition.printer_writes (definition : Definition Value) :
    definition.printer.Writes definition.marks := by
  cases definition with
  | operation op => exact op.printer_writes
  | fragment frag => exact frag.printer_writes

/-- A document with a definition is written by its marks. -/
theorem Document.printer_writes {document : Document Value}
    (h : document ≠ ⟨[]⟩) : document.printer.Writes document.marks := by
  obtain ⟨definitions⟩ := document
  have hne : definitions.isEmpty = false := by
    cases definitions with
    | nil => exact absurd rfl h
    | cons definition rest => rfl
  unfold printer
  rw [hne]
  exact .spaced (forall₂_writes_map Definition.printer_writes definitions)

theorem Document.appendTo_printer_empty (text : String) :
    (printer ⟨[]⟩).appendTo text = (.error .emptyDocument, text) :=
  rfl

/-- Every node is written by its marks, apart from a document without definitions. -/
theorem Node.printer_writes : ∀ {node : Node}, ¬ node.IsEmptyDocument →
    node.printer.Writes node.marks
  | .name n, _ => n.printer_writes
  | .fragmentName n, _ => n.printer_writes
  | .enumValue v, _ => v.printer_writes
  | .variable v, _ => v.printer_writes
  | .value v, _ => v.printer_writes
  | .objectValue o, _ => .bracketed rfl rfl (Value.fieldPrinters_write o.fields)
  | .argument a, _ => a.printer_writes
  | .arguments as, _ => as.printer_writes
  | .directive d, _ => d.printer_writes
  | .typeReference t, _ => t.printer_writes
  | .nonNullType t, _ => t.printer_writes
  | .variableDefinition d, _ => d.printer_writes
  | .field f, _ => f.printer_writes
  | .selection s, _ => s.printer_writes
  | .selectionSet s, _ => s.printer_writes
  | .fragmentSpread s, _ => s.printer_writes
  | .inlineFragment f, _ => f.printer_writes
  | .fragmentDefinition d, _ => d.printer_writes
  | .operationType t, _ => t.printer_writes
  | .operation o, _ => o.printer_writes
  | .definition d, _ => d.printer_writes
  | .document _, h => Document.printer_writes fun hd => h (by rw [IsEmptyDocument, hd])

end GraphQLText

import GraphQLText.Proofs.Reading.Grammar
import GraphQLText.Proofs.Reading.RoundTrip
import GraphQLText.Proofs.Tree.Conformity

/-!
# Derivable texts

The text of a document is derivable in the grammar exactly if the document gives the grammar what it
asks for.  If it does, its tokens are put together by the productions.  Conversely, the reader takes
the tokens of any derivation as a document that gives the grammar what it asks for; and since the
text of a document is read as the normal form of that document, no other derivation can help out.
-/

namespace GraphQLText.Grammar

open Reader

/-! ## The reader takes what is derivable -/

/-! ### Values -/

/-- Every word is a constant. -/
theorem isConstant_ofWord (text : String) : (Literal.ofWord text).IsConstant := by
  unfold Literal.ofWord
  split
  · trivial
  · split
    · trivial
    · split <;> trivial

mutual

/-- A value is taken as a literal, and a constant as one without a variable. -/
theorem Value.exists_takes : ∀ {const : Bool} {ts : List Token}, Value const ts →
    ∃ literal : Literal, Takes Reader.value [] ts literal ∧ Starts [']'] ts ∧
      (const = true → literal.IsConstant)
  | _, _, .variable name =>
    ⟨_, takes_value_variable name, starts_punctuator (by decide) _, by simp⟩
  | _, _, .int text => ⟨_, takes_value_int text, ⟨_, _, rfl, by simp⟩, fun _ => trivial⟩
  | _, _, .float text => ⟨_, takes_value_float text, ⟨_, _, rfl, by simp⟩, fun _ => trivial⟩
  | _, _, .string contents =>
    ⟨_, takes_value_string contents, ⟨_, _, rfl, by simp⟩, fun _ => trivial⟩
  | _, _, .blockString text =>
    ⟨_, takes_value_blockString text, ⟨_, _, rfl, by simp⟩, fun _ => trivial⟩
  | _, _, .boolean _ =>
    ⟨_, takes_value_word _, starts_name _ _ _, fun _ => isConstant_ofWord _⟩
  | _, _, .null => ⟨_, takes_value_word _, starts_name _ _ _, fun _ => isConstant_ofWord _⟩
  | _, _, .enum _ => ⟨_, takes_value_word _, starts_name _ _ _, fun _ => isConstant_ofWord _⟩
  | _, _, .list h => by
    obtain ⟨items, hitems, hconst⟩ := Values.exists_items h
    exact ⟨_, takes_value_list hitems, starts_punctuator (by decide) _, hconst⟩
  | _, _, .object h => by
    obtain ⟨fields, hfields, hconst⟩ := ObjectFields.exists_items h
    exact ⟨_, takes_value_object hfields, starts_punctuator (by decide) _, hconst⟩
termination_by structural _ _ h => h

theorem Values.exists_items : ∀ {const : Bool} {ts : List Token}, Values const ts →
    ∃ items : List Literal, Items Reader.value [] ']' ts items ∧
      (const = true → Literal.AreConstant items)
  | _, _, .nil => ⟨[], .nil, fun _ => trivial⟩
  | _, _, .cons h hs => by
    obtain ⟨item, htakes, hstarts, hconst⟩ := Value.exists_takes h
    obtain ⟨rest, hitems, hconst'⟩ := Values.exists_items hs
    exact ⟨item :: rest, .cons htakes hstarts hitems, fun hc => ⟨hconst hc, hconst' hc⟩⟩
termination_by structural _ _ h => h

theorem ObjectFields.exists_items : ∀ {const : Bool} {ts : List Token}, ObjectFields const ts →
    ∃ fields : List (Name × Literal),
      Items (fun fuel => named (Reader.value fuel)) [] '\x7d' ts fields ∧
      (const = true → Literal.FieldsAreConstant fields)
  | _, _, .nil => ⟨[], .nil, fun _ => trivial⟩
  | _, _, .cons name h hs => by
    obtain ⟨literal, htakes, -, hconst⟩ := Value.exists_takes h
    obtain ⟨rest, hfields, hconst'⟩ := ObjectFields.exists_items hs
    exact ⟨(⟨name⟩, literal) :: rest, .cons (takes_named htakes name) (starts_name _ _ _) hfields,
      fun hc => ⟨hconst hc, hconst' hc⟩⟩
termination_by structural _ _ h => h

end

/-! ### Arguments and directives -/

section Many

variable {α : Type} {rule : List Token → Prop} {item : Nat → Reader α} {stops : List Char}
  {closing : Char} {P : α → Prop}

/-- What is taken one by one is taken in a row. -/
theorem Many.exists_items {ts : List Token} (h : Many rule ts)
    (hrule : ∀ us, rule us → ∃ x, Takes item stops us x ∧ Starts (closing :: stops) us ∧ P x) :
    ∃ xs, Items item stops closing ts xs ∧ xs ≠ [] ∧ ∀ x ∈ xs, P x := by
  induction h with
  | one hfirst =>
      obtain ⟨x, htakes, hstarts, hx⟩ := hrule _ hfirst
      refine ⟨[x], ?_, by simp, by simpa using hx⟩
      have hitems := Items.cons htakes hstarts .nil
      rwa [List.append_nil] at hitems
  | more hfirst _ ih =>
      obtain ⟨x, htakes, hstarts, hx⟩ := hrule _ hfirst
      obtain ⟨xs, hitems, -, hxs⟩ := ih
      exact ⟨x :: xs, .cons htakes hstarts hitems, by simp, List.forall_mem_cons.mpr ⟨hx, hxs⟩⟩

end Many

theorem exists_arguments {ts : List Token} (h : Optional Arguments ts) :
    ∃ given, TakesPart Reader.arguments '(' ['('] ts given := by
  cases h with
  | none => exact ⟨_, takesPart_arguments takesPart_parenthesized?_nil⟩
  | some h =>
      obtain ⟨hmany⟩ := h
      have hargument : ∀ us, Argument us → ∃ x,
          Takes (fun fuel => named (Reader.value fuel)) [] us x ∧ Starts [')'] us ∧ True := by
        rintro us ⟨name, hvalue⟩
        obtain ⟨literal, htakes, -, -⟩ := hvalue.exists_takes
        exact ⟨_, takes_named htakes name, starts_name _ _ _, trivial⟩
      obtain ⟨pairs, hitems, hne, -⟩ := hmany.exists_items hargument
      exact ⟨_, takesPart_arguments (takesPart_parenthesized? hitems (by simp) hne)⟩

theorem exists_directives {ts : List Token} (h : Optional Directives ts) :
    ∃ dirs, TakesPart Reader.directives '@' ['@', '('] ts dirs := by
  cases h with
  | none => exact ⟨_, takesPart_directives_nil⟩
  | some h =>
      induction h with
      | one hfirst =>
          obtain ⟨name, harguments⟩ := hfirst
          obtain ⟨given, htakes⟩ := exists_arguments harguments
          have hall := takesPart_directives_cons name htakes takesPart_directives_nil
          rw [List.append_nil] at hall
          exact ⟨_, hall⟩
      | more hfirst _ ih =>
          obtain ⟨name, harguments⟩ := hfirst
          obtain ⟨given, htakes⟩ := exists_arguments harguments
          obtain ⟨dirs, hdirs⟩ := ih
          exact ⟨_, takesPart_directives_cons name htakes hdirs⟩

/-! ### Selections -/

theorem exists_condition {cs : List Token} (h : Optional TypeCondition cs) :
    ∃ condition, cs = conditionTokens condition := by
  cases h with
  | none => exact ⟨none, rfl⟩
  | some h =>
      obtain ⟨type⟩ := h
      exact ⟨some ⟨type⟩, rfl⟩

/-- A field is taken with its selections, which may be missing. -/
theorem exists_takes_field (name : String) {cs ts ds ss : List Token}
    {set : GraphQLText.SelectionSet Literal} (halias : Optional Alias cs)
    (harguments : Optional Arguments ts) (hdirectives : Optional Directives ds)
    (hset :
      TakesPart (fun fuel => selectionSet? (Reader.selection fuel) fuel) '\x7b' ['\x7b'] ss set)
    (hfilled : set.IsFilled) :
    ∃ selection, Takes Reader.selection selectionStops
        (cs ++ .name name :: (ts ++ (ds ++ ss))) selection ∧
      Starts ('\x7d' :: selectionStops) (cs ++ .name name :: (ts ++ (ds ++ ss))) ∧
      selection.IsFilled := by
  obtain ⟨given, hgiven⟩ := exists_arguments harguments
  obtain ⟨dirs, hdirs⟩ := exists_directives hdirectives
  have htakes (aliasName : Option Name) :=
    takes_selection_field aliasName ⟨name⟩ hgiven hdirs hset
  cases halias with
  | none => exact ⟨_, htakes none, starts_name _ _ _, hfilled⟩
  | some h =>
      obtain ⟨aliasText⟩ := h
      exact ⟨_, htakes (some ⟨aliasText⟩), starts_name _ _ _, hfilled⟩

mutual

/-- A selection set is taken as one that selects something. -/
theorem SelectionSet.exists_items : ∀ {ss : List Token}, SelectionSet ss →
    ∃ ts selections, ss = .punctuator '\x7b' :: (ts ++ [.punctuator '\x7d']) ∧
      Items Reader.selection selectionStops '\x7d' ts selections ∧
      (⟨selections⟩ : GraphQLText.SelectionSet Literal).Conforms
  | _, .mk h => by
    obtain ⟨selections, hitems, hne, hfilled⟩ := Selections.exists_items h
    exact ⟨_, selections, rfl, hitems, ⟨hne, hfilled⟩⟩
termination_by structural _ h => h

theorem Selections.exists_items : ∀ {ts : List Token}, Selections ts →
    ∃ selections, Items Reader.selection selectionStops '\x7d' ts selections ∧
      selections ≠ [] ∧ SelectionSet.AreFilled selections
  | _, .one h => by
    obtain ⟨selection, htakes, hstarts, hfilled⟩ := Selection.exists_takes h
    have hitems := Items.cons htakes hstarts .nil
    rw [List.append_nil] at hitems
    exact ⟨[selection], hitems, by simp, hfilled, trivial⟩
  | _, .more h hs => by
    obtain ⟨selection, htakes, hstarts, hfilled⟩ := Selection.exists_takes h
    obtain ⟨rest, hitems, -, hrest⟩ := Selections.exists_items hs
    exact ⟨selection :: rest, .cons htakes hstarts hitems, by simp, hfilled, hrest⟩
termination_by structural _ h => h

theorem Selection.exists_takes : ∀ {ts : List Token}, Selection ts →
    ∃ selection, Takes Reader.selection selectionStops ts selection ∧
      Starts ('\x7d' :: selectionStops) ts ∧ selection.IsFilled
  | _, .leafField name halias harguments hdirectives => by
    have hfield := exists_takes_field name halias harguments hdirectives
      takesPart_selectionSet?_nil trivial
    simpa using hfield
  | _, .field name halias harguments hdirectives hset => by
    obtain ⟨ts, selections, rfl, hitems, hconforms⟩ := SelectionSet.exists_items hset
    exact exists_takes_field name halias harguments hdirectives
      (takesPart_selectionSet? hitems) hconforms.filled
  | _, .spread hname hdirectives => by
    obtain ⟨dirs, hdirs⟩ := exists_directives hdirectives
    exact ⟨_, takes_selection_spread hname hdirs, ⟨_, _, rfl, by simp⟩, trivial⟩
  | _, .inlineFragment hcondition hdirectives hset => by
    obtain ⟨condition, rfl⟩ := exists_condition hcondition
    obtain ⟨dirs, hdirs⟩ := exists_directives hdirectives
    obtain ⟨ts, selections, rfl, hitems, hconforms⟩ := SelectionSet.exists_items hset
    exact ⟨_, takes_selection_inlineFragment condition hdirs (takes_selectionSet hitems) rfl,
      ⟨_, _, rfl, by simp⟩, hconforms.nonempty, hconforms.filled⟩
termination_by structural _ h => h

end

/-! ### Types -/

mutual

/-- A type is taken as one with a single item in each list type. -/
theorem TypeReference.exists_takes : ∀ {ts : List Token}, TypeReference ts →
    ∃ type, Takes Reader.typeReference ['!'] ts type ∧ Starts [']', '!'] ts ∧ type.IsSingular
  | _, .nullable h => by
    obtain ⟨type, htakes, hstarts, hsingular⟩ := NullableType.exists_takes h
    refine ⟨type.nullable, takes_typeReference_nullable htakes, hstarts, ?_⟩
    cases type with
    | named name => trivial
    | list items => exact hsingular
  | _, .nonNull h => by
    obtain ⟨type, htakes, hstarts, hsingular⟩ := NullableType.exists_takes h
    exact ⟨.nonNull type, takes_typeReference_nonNull htakes, hstarts.append _, hsingular⟩
termination_by structural _ h => h

theorem NullableType.exists_takes : ∀ {ts : List Token}, NullableType ts →
    ∃ type, TakesNullable ts type ∧ Starts [']', '!'] ts ∧ type.IsSingular
  | _, .named name => ⟨_, takesNullable_named name, starts_name _ _ _, trivial⟩
  | _, .list h => by
    obtain ⟨item, htakes, hstarts, hsingular⟩ := TypeReference.exists_takes h
    have hitems := Items.cons htakes hstarts .nil
    rw [List.append_nil] at hitems
    exact ⟨.list [item], takesNullable_list hitems, starts_punctuator (by decide) _,
      rfl, hsingular, trivial⟩
termination_by structural _ h => h

end

/-! ### Definitions -/

theorem exists_default {ds : List Token} (h : Optional DefaultValue ds) :
    ∃ default?, TakesDefault ds default? ∧
      ∀ literal ∈ default?, Literal.IsConstant literal := by
  cases h with
  | none => exact ⟨none, .none, by simp⟩
  | some h =>
      obtain ⟨hvalue⟩ := h
      obtain ⟨literal, htakes, -, hconst⟩ := hvalue.exists_takes
      exact ⟨some literal, .some htakes, by simpa using hconst⟩

/-- Variables are taken as ones that give the grammar what it asks for. -/
theorem exists_variables {vs : List Token} (h : Optional VariableDefinitions vs) :
    ∃ vars, TakesPart (fun fuel => parenthesized? (Reader.variableDefinition fuel) fuel) '(' ['(']
        vs vars ∧
      ∀ definition ∈ vars, definition.Conforms Literal.IsConstant := by
  cases h with
  | none => exact ⟨[], takesPart_parenthesized?_nil, by simp⟩
  | some h =>
      obtain ⟨hmany⟩ := h
      have hdefinition : ∀ us, VariableDefinition us → ∃ x,
          Takes Reader.variableDefinition variableStops us x ∧
            Starts (')' :: variableStops) us ∧ x.Conforms Literal.IsConstant := by
        rintro us ⟨name, htype, hdefault⟩
        obtain ⟨type, htakes, -, hsingular⟩ := htype.exists_takes
        obtain ⟨default?, htakesDefault, hconst⟩ := exists_default hdefault
        exact ⟨_, takes_variableDefinition name htakes htakesDefault,
          starts_punctuator (by decide) _, hsingular, hconst⟩
      obtain ⟨vars, hitems, hne, hvars⟩ := hmany.exists_items hdefinition
      exact ⟨vars, takesPart_parenthesized? hitems (by decide) hne, hvars⟩

theorem exists_operationName {ns : List Token} (h : Optional OperationName ns) :
    ∃ name?, ns = operationNameTokens name? := by
  cases h with
  | none => exact ⟨none, rfl⟩
  | some h =>
      obtain ⟨name⟩ := h
      exact ⟨some ⟨name⟩, rfl⟩

theorem exists_operationType {keyword : String}
    (h : keyword ∈ ["query", "mutation", "subscription"]) :
    ∃ type, operationType? keyword = some type := by
  simp only [List.mem_cons, List.not_mem_nil, or_false] at h
  rcases h with rfl | rfl | rfl
  · exact ⟨.query, rfl⟩
  · exact ⟨.mutation, rfl⟩
  · exact ⟨.subscription, rfl⟩

/-- A definition is taken as one that gives the grammar what it asks for. -/
theorem Definition.exists_takes {ts : List Token} (h : Definition ts) :
    ∃ definition, Takes Reader.definition [] ts definition ∧ Starts ['\x7d'] ts ∧
      definition.Conforms Literal.IsConstant := by
  cases h with
  | shorthand hset =>
      obtain ⟨ts, selections, rfl, hitems, hconforms⟩ := hset.exists_items
      exact ⟨_, takes_definition_shorthand (takes_selectionSet hitems) rfl,
        starts_punctuator (by decide) _, by simp, hconforms⟩
  | operation hkeyword hname hvariables hdirectives hset =>
      obtain ⟨type, htype⟩ := exists_operationType hkeyword
      obtain ⟨name?, rfl⟩ := exists_operationName hname
      obtain ⟨vars, hvars, hconforms⟩ := exists_variables hvariables
      obtain ⟨dirs, hdirs⟩ := exists_directives hdirectives
      obtain ⟨ts, selections, rfl, hitems, hset⟩ := hset.exists_items
      exact ⟨_, takes_definition_operation htype name? hvars hdirs (takes_selectionSet hitems) rfl,
        starts_name _ _ _, hconforms, hset⟩
  | fragment hname hcondition hdirectives hset =>
      obtain ⟨type⟩ := hcondition
      obtain ⟨dirs, hdirs⟩ := exists_directives hdirectives
      obtain ⟨ts, selections, rfl, hitems, hset⟩ := hset.exists_items
      exact ⟨_, takes_definition_fragment hname ⟨type⟩ hdirs (takes_selectionSet hitems) rfl,
        starts_name _ _ _, hset⟩

/-- A derivable text is read as a document that gives the grammar what it asks for. -/
theorem Derivable.exists_read? {text : String} (h : Derivable text) :
    ∃ document, Document.read? text = some document ∧ document.Conforms Literal.IsConstant := by
  obtain ⟨tokens, hlex, hdocument⟩ := h
  obtain ⟨defs, hitems, hne, hconforms⟩ :=
    Many.exists_items hdocument fun _ => Definition.exists_takes
  exact ⟨⟨defs⟩, Document.read?_of_items hlex hitems hne, hconforms⟩

end GraphQLText.Grammar

namespace GraphQLText

open Mark

/-! ## What gives the grammar what it asks for is derivable -/

/-- A rule for each item is a rule for all of them in a row. -/
theorem Grammar.many_flatMap {α : Type} {rule : List Token → Prop} {tokens : α → List Token}
    {xs : List α} (hne : xs ≠ []) (h : ∀ x ∈ xs, rule (tokens x)) :
    Grammar.Many rule (xs.flatMap tokens) := by
  induction xs with
  | nil => exact absurd rfl hne
  | cons x xs ih =>
      rw [List.forall_mem_cons] at h
      rw [List.flatMap_cons]
      by_cases hxs : xs = []
      · subst hxs
        rw [List.flatMap_nil, List.append_nil]
        exact .one h.1
      · exact .more h.1 (ih hxs h.2)

theorem EnumValue.notMem_reservedWords {value : EnumValue}
    (h : Leaf.IsAcceptable (.enumValue value)) :
    value.name.text ∉ Grammar.reservedWords := by
  intro hword
  rw [Grammar.reservedWords] at hword
  rw [Leaf.IsAcceptable, Leaf.fault?] at h
  by_cases hname : Token.IsName value.name.text.toList <;> simp [hname, hword] at h

mutual

/-- The tokens of a value are those of a value of the grammar. -/
theorem Value.derives {const : Bool} : ∀ value : Value,
    (∀ leaf ∈ value.leaves, leaf.IsAcceptable) → (const = true → value.IsConstant) →
    Grammar.Value const (tokens value.marks)
  | .string _, _, _ => .string _
  | .int _, _, _ => .int _
  | .single _, _, _ => .float _
  | .double _, _, _ => .float _
  | .boolean true, _, _ => .boolean (by decide)
  | .boolean false, _, _ => .boolean (by decide)
  | .null, _, _ => .null
  | .list items, h, hconst => by
    rw [Value.marks, tokens_bracketed]
    exact .list (Value.derives_items items h hconst)
  | .map entries, h, hconst => by
    rw [Value.marks, tokens_bracketed]
    exact .object (Value.derives_fields entries h hconst)
  | .object fields, h, hconst => by
    rw [Value.marks, tokens_bracketed]
    exact .object (Value.derives_fields fields h hconst)
  | .variable var, _, hconst => by
    cases const with
    | false => exact .variable var.name.text
    | true => exact (hconst rfl).elim
  | .enum value, h, _ => .enum (EnumValue.notMem_reservedWords (h _ (List.mem_singleton_self _)))
termination_by structural value => value

theorem Value.derives_items {const : Bool} : ∀ items : List Value,
    (∀ leaf ∈ Value.leavesOfItems items, leaf.IsAcceptable) →
    (const = true → Value.AreConstant items) →
    Grammar.Values const ((Value.marksOfItems items).flatMap tokens)
  | [], _, _ => .nil
  | item :: rest, h, hconst => by
    rw [Value.leavesOfItems, List.forall_mem_append] at h
    exact .cons (Value.derives item h.1 fun hc => (hconst hc).1)
      (Value.derives_items rest h.2 fun hc => (hconst hc).2)
termination_by structural items => items

theorem Value.derives_fields {const : Bool} : ∀ fields : List (Name × Value),
    (∀ leaf ∈ Value.leavesOfFields fields, leaf.IsAcceptable) →
    (const = true → Value.FieldsAreConstant fields) →
    Grammar.ObjectFields const ((Value.marksOfFields fields).flatMap tokens)
  | [], _, _ => .nil
  | (name, value) :: rest, h, hconst => by
    rw [Value.leavesOfFields, List.forall_mem_cons, List.forall_mem_append] at h
    exact .cons name.text (Value.derives value h.2.1 fun hc => (hconst hc).1)
      (Value.derives_fields rest h.2.2 fun hc => (hconst hc).2)
termination_by structural fields => fields

end

/-! ### Arguments and directives -/

theorem Argument.derives {argument : Argument Value}
    (h : ∀ leaf ∈ argument.leaves, leaf.IsAcceptable) :
    Grammar.Argument (tokens argument.marks) := by
  rw [leaves, List.forall_mem_cons] at h
  rw [marks, tokens_labelled]
  exact .mk argument.name.text (argument.value.derives h.2 (by simp))

theorem Arguments.derives (arguments : Arguments Value)
    (h : ∀ leaf ∈ arguments.leaves, leaf.IsAcceptable) :
    Grammar.Optional Grammar.Arguments (tokens arguments.marks) := by
  by_cases hempty : arguments.isEmpty = true
  · rw [marks, if_pos hempty]
    exact .none
  · have hne : arguments.items ≠ [] := by simpa [isEmpty] using hempty
    rw [marks, if_neg hempty, tokens_bracketed, List.flatMap_map]
    refine .some (.mk (Grammar.many_flatMap hne fun argument hargument => ?_))
    exact Argument.derives fun leaf hleaf =>
      h leaf (List.mem_flatMap.mpr ⟨argument, hargument, hleaf⟩)

theorem Directive.derives (directive : Directive Value)
    (h : ∀ leaf ∈ directive.leaves, leaf.IsAcceptable) :
    Grammar.Directive (tokens directive.marks) := by
  rw [leaves, List.forall_mem_cons] at h
  exact .mk directive.name.text (directive.arguments.derives h.2)

theorem Directive.derives_all (directives : List (Directive Value))
    (h : ∀ leaf ∈ leavesOfAll directives, leaf.IsAcceptable) :
    Grammar.Optional Grammar.Directives (tokens (marksOfAll directives)) := by
  rw [marksOfAll, tokens_ledBySpaces, List.flatMap_map]
  by_cases hne : directives = []
  · subst hne
    exact .none
  · refine .some (Grammar.many_flatMap hne fun directive hdirective => ?_)
    exact directive.derives fun leaf hleaf =>
      h leaf (List.mem_flatMap.mpr ⟨directive, hdirective, hleaf⟩)

/-! ### Selections -/

theorem FragmentSpread.derives (spread : FragmentSpread Value)
    (h : ∀ leaf ∈ spread.leaves, leaf.IsAcceptable) :
    Grammar.Selection (tokens spread.marks) := by
  rw [leaves, List.forall_mem_cons] at h
  exact .spread (FragmentName.ne_on_of_isAcceptable h.1)
    (Directive.derives_all spread.directives h.2)

/-- The tokens before those of the name of a field are those of its alias. -/
theorem Field.exists_alias (aliasName : Option Name) (name : Name) :
    ∃ cs, Grammar.Optional Grammar.Alias cs ∧
      tokens (nameMarks aliasName name) = cs ++ [.name name.text] := by
  cases aliasName with
  | none => exact ⟨[], .none, rfl⟩
  | some given => exact ⟨_, .some (.mk given.text), rfl⟩

theorem InlineFragment.derives_condition (typeCondition : Option Name) :
    Grammar.Optional Grammar.TypeCondition (tokens (conditionMarks typeCondition)) := by
  cases typeCondition with
  | none => exact .none
  | some type => exact .some (.mk type.text)

mutual

theorem Field.derives : ∀ field : Field Value, (∀ leaf ∈ field.leaves, leaf.IsAcceptable) →
    field.IsFilled → Grammar.Selection (tokens field.marks)
  | ⟨aliasName, name, arguments, directives, set⟩, h, hfilled => by
    simp only [Field.leaves, List.forall_mem_append, List.forall_mem_cons] at h
    obtain ⟨-, -, harguments, hdirectives, hset⟩ := h
    obtain ⟨cs, halias, hname⟩ := Field.exists_alias aliasName name
    have hargs := arguments.derives harguments
    have hdirs := Directive.derives_all directives hdirectives
    rw [Field.marks, tokens_append, tokens_append, tokens_append, hname, List.append_assoc,
      List.singleton_append]
    by_cases hempty : set.isEmpty = true
    · rw [if_pos hempty, tokens_nil, List.append_nil]
      exact .leafField name.text halias hargs hdirs
    · have hne : set.selections ≠ [] := by simpa [SelectionSet.isEmpty] using hempty
      rw [if_neg hempty, tokens_space]
      exact .field name.text halias hargs hdirs (SelectionSet.derives set hset hne hfilled)
termination_by structural field => field

theorem InlineFragment.derives : ∀ fragment : InlineFragment Value,
    (∀ leaf ∈ fragment.leaves, leaf.IsAcceptable) → fragment.IsFilled →
    Grammar.Selection (tokens fragment.marks)
  | ⟨typeCondition, directives, set⟩, h, hfilled => by
    simp only [InlineFragment.leaves, List.forall_mem_append] at h
    rw [InlineFragment.marks, tokens_spread, tokens_append, tokens_append, tokens_space]
    exact .inlineFragment (InlineFragment.derives_condition typeCondition)
      (Directive.derives_all directives h.2.1)
      (SelectionSet.derives set h.2.2 hfilled.1 hfilled.2)
termination_by structural fragment => fragment

theorem Selection.derives : ∀ selection : Selection Value,
    (∀ leaf ∈ selection.leaves, leaf.IsAcceptable) → selection.IsFilled →
    Grammar.Selection (tokens selection.marks)
  | .field f, h, hfilled => Field.derives f h hfilled
  | .spread s, h, _ => s.derives h
  | .inlineFragment f, h, hfilled => InlineFragment.derives f h hfilled
termination_by structural selection => selection

/-- The tokens of a selection set that selects something are those of one of the grammar. -/
theorem SelectionSet.derives : ∀ set : SelectionSet Value,
    (∀ leaf ∈ set.leaves, leaf.IsAcceptable) → set.selections ≠ [] → set.IsFilled →
    Grammar.SelectionSet (tokens set.marks)
  | ⟨selections⟩, h, hne, hfilled => by
    rw [SelectionSet.marks, tokens_block]
    exact .mk (SelectionSet.derives_all selections h hne hfilled)
termination_by structural set => set

theorem SelectionSet.derives_all : ∀ selections : List (Selection Value),
    (∀ leaf ∈ SelectionSet.leavesOfAll selections, leaf.IsAcceptable) → selections ≠ [] →
    SelectionSet.AreFilled selections →
    Grammar.Selections ((SelectionSet.marksOfAll selections).flatMap tokens)
  | [], _, hne, _ => absurd rfl hne
  | selection :: rest, h, _, hfilled => by
    rw [SelectionSet.leavesOfAll, List.forall_mem_append] at h
    rw [SelectionSet.marksOfAll, List.flatMap_cons]
    have hfirst := Selection.derives selection h.1 hfilled.1
    have hrest := SelectionSet.derives_all rest h.2
    by_cases hempty : rest = []
    · rw [hempty, SelectionSet.marksOfAll, List.flatMap_nil, List.append_nil]
      exact .one hfirst
    · exact .more hfirst (hrest hempty hfilled.2)
termination_by structural selections => selections

end

/-! ### Types -/

mutual

theorem TypeReference.derives : ∀ type : TypeReference, type.IsSingular →
    Grammar.TypeReference (tokens type.marks)
  | .named name, _ => .nullable (.named name.text)
  | .list items, h => by
    rw [TypeReference.marks, tokens_bracketed]
    exact .nullable (.list (TypeReference.derives_single items h.1 h.2))
  | .nonNull inner, h => NonNullType.derives inner h
termination_by structural type => type

theorem NonNullType.derives : ∀ type : NonNullType, type.IsSingular →
    Grammar.TypeReference (tokens type.marks)
  | .named name, _ => .nonNull (.named name.text)
  | .list items, h => by
    rw [NonNullType.marks, tokens_append, tokens_bracketed]
    exact .nonNull (.list (TypeReference.derives_single items h.1 h.2))
termination_by structural type => type

/-- The tokens between the brackets of a list type are those of its only item. -/
theorem TypeReference.derives_single : ∀ items : List TypeReference, items.length = 1 →
    TypeReference.AreSingular items →
    Grammar.TypeReference ((TypeReference.marksOfAll items).flatMap tokens)
  | [], hlength, _ => absurd hlength (by decide)
  | [item], _, h => by
    rw [TypeReference.marksOfAll, TypeReference.marksOfAll, List.flatMap_singleton]
    exact TypeReference.derives item h.1
  | _ :: _ :: rest, hlength, _ => absurd hlength (by simp)
termination_by structural items => items

end

/-! ### Definitions -/

theorem VariableDefinition.derives (definition : VariableDefinition Value)
    (h : ∀ leaf ∈ definition.leaves, leaf.IsAcceptable)
    (hconforms : definition.Conforms Value.IsConstant) :
    Grammar.VariableDefinition (tokens definition.marks) := by
  obtain ⟨var, type, defaultValue⟩ := definition
  simp only [leaves, List.forall_mem_append, List.forall_mem_cons] at h
  have hdefault : Grammar.Optional Grammar.DefaultValue (tokens (defaultMarks defaultValue)) := by
    cases defaultValue with
    | none => exact .none
    | some value =>
        have hleaves : ∀ leaf ∈ value.leaves, leaf.IsAcceptable :=
          fun leaf hleaf => h.2.2 leaf (by simpa using hleaf)
        exact .some (.mk (value.derives hleaves fun _ => hconforms.defaultValue value rfl))
  rw [marks, tokens_append, tokens_labelled]
  exact .mk var.name.text (type.derives hconforms.type) hdefault

theorem Operation.derives_variables (definitions : List (VariableDefinition Value))
    (h : ∀ leaf ∈ definitions.flatMap VariableDefinition.leaves, leaf.IsAcceptable)
    (hconforms : ∀ definition ∈ definitions, definition.Conforms Value.IsConstant) :
    Grammar.Optional Grammar.VariableDefinitions (tokens (variableMarks definitions)) := by
  by_cases hempty : definitions.isEmpty = true
  · rw [variableMarks, if_pos hempty]
    exact .none
  · have hne : definitions ≠ [] := by simpa using hempty
    rw [variableMarks, if_neg hempty, tokens_bracketed, List.flatMap_map]
    refine .some (.mk (Grammar.many_flatMap hne fun definition hdefinition => ?_))
    have hleaves : ∀ leaf ∈ definition.leaves, leaf.IsAcceptable := fun leaf hleaf =>
      h leaf (List.mem_flatMap.mpr ⟨definition, hdefinition, hleaf⟩)
    exact definition.derives hleaves (hconforms definition hdefinition)

theorem Operation.derives_name (name? : Option Name) :
    Grammar.Optional Grammar.OperationName (tokens (nameMarks name?)) := by
  cases name? with
  | none => exact .none
  | some name => exact .some (.mk name.text)

theorem OperationType.keyword_mem (type : OperationType) :
    type.keyword ∈ ["query", "mutation", "subscription"] := by
  cases type with
  | query => decide
  | mutation => decide
  | subscription => decide

theorem Definition.derives (definition : Definition Value)
    (h : ∀ leaf ∈ definition.leaves, leaf.IsAcceptable)
    (hconforms : definition.Conforms Value.IsConstant) :
    Grammar.Definition (tokens definition.marks) := by
  cases definition with
  | operation op =>
      simp only [leaves, Operation.leaves, List.forall_mem_append] at h
      obtain ⟨-, hvariables, hdirectives, hset⟩ := h
      rw [marks, Operation.marks, tokens_word, tokens_append, tokens_append, tokens_append,
        tokens_space]
      exact .operation op.type.keyword_mem (Operation.derives_name op.writtenName?)
        (Operation.derives_variables op.variableDefinitions hvariables hconforms.1)
        (Directive.derives_all op.directives hdirectives)
        (op.selectionSet.derives hset hconforms.2.nonempty hconforms.2.filled)
  | fragment frag =>
      simp only [leaves, FragmentDefinition.leaves, List.forall_mem_append,
        List.forall_mem_cons] at h
      obtain ⟨hname, -, hdirectives, hset⟩ := h
      simp only [marks, FragmentDefinition.marks, tokens_word, tokens_space, tokens_leaf,
        tokens_append]
      exact .fragment (FragmentName.ne_on_of_isAcceptable hname)
        (.mk frag.typeCondition.text) (Directive.derives_all frag.directives hdirectives)
        (frag.selectionSet.derives hset hconforms.nonempty hconforms.filled)

/-! ## Documents -/

/-- The text of a document is derivable in the grammar if and only if each operation, fragment
definition and inline fragment selects something, each list type has exactly one item and no default
value has a variable in it. -/
theorem Document.derivable_iff_conforms {document : Document Value} {text : String}
    (h : (Node.document document).print = .ok text) :
    Grammar.Derivable text ↔ document.Conforms Value.IsConstant := by
  obtain ⟨hne, hleaves, hlex⟩ := lex_of_print h
  constructor
  · intro hderivable
    obtain ⟨reading, hreading, hconforms⟩ := hderivable.exists_read?
    rw [(read?_of_print h).1, Option.some.injEq] at hreading
    exact document.conforms_normalForm.mp (hreading ▸ hconforms)
  · intro hconforms
    refine ⟨_, hlex, ?_⟩
    rw [marks, tokens_spaced, List.flatMap_map]
    refine Grammar.many_flatMap hne fun definition hdefinition => ?_
    exact definition.derives
      (fun leaf hleaf => hleaves leaf (List.mem_flatMap.mpr ⟨definition, hdefinition, hleaf⟩))
      (hconforms definition hdefinition)

/-- Inside a field, an inline fragment that selects nothing takes the text out of the grammar, and
one that selects a field does not. -/
theorem Document.derivable_iff_conforms_nested :
    let document (selections : List (Selection Value)) : Document Value :=
      ⟨[.operation { type := .query, selectionSet := ⟨[.field {
        name := ⟨"a"⟩
        selectionSet := ⟨[.inlineFragment { selectionSet := ⟨selections⟩ }]⟩ }]⟩ }]⟩
    let leaf : Selection Value := .field { name := ⟨"b"⟩, selectionSet := ⟨[]⟩ }
    (Node.document (document [])).print = .ok "query \x7b a \x7b ... \x7b \x7d \x7d \x7d" ∧
      ¬ Grammar.Derivable "query \x7b a \x7b ... \x7b \x7d \x7d \x7d" ∧
      (Node.document (document [leaf])).print =
        .ok "query \x7b a \x7b ... \x7b b \x7d \x7d \x7d" ∧
      Grammar.Derivable "query \x7b a \x7b ... \x7b b \x7d \x7d \x7d" := by
  intro document leaf
  have hempty : (Node.document (document [])).print =
      .ok "query \x7b a \x7b ... \x7b \x7d \x7d \x7d" := by decide +kernel
  have hleaf : (Node.document (document [leaf])).print =
      .ok "query \x7b a \x7b ... \x7b b \x7d \x7d \x7d" := by decide +kernel
  refine ⟨hempty, ?_, hleaf, ?_⟩
  · rw [Document.derivable_iff_conforms hempty]
    intro hconforms
    have hfilled := (hconforms _ (List.mem_singleton_self _)).2.filled
    exact hfilled.1.1.1 rfl
  · rw [Document.derivable_iff_conforms hleaf]
    intro definition hdefinition
    rw [List.mem_singleton.mp hdefinition]
    exact ⟨by simp, by simp, ⟨⟨by simp, trivial, trivial⟩, trivial⟩, trivial⟩

end GraphQLText

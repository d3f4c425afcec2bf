import GraphQLText.Proofs.Tree.ValueEquality

/-!
# Equality of nodes

Two nodes are equal if they agree in all names and types and have equal values in the same places.
So equality of nodes rests on equality of values: it is symmetric and transitive as that is, and a
node equals itself if and only if its values do.
-/

namespace GraphQLText

variable {α β : Type}

theorem list_beq_iff_forall₂ [BEq α] {xs ys : List α} :
    (xs == ys) = true ↔ List.Forall₂ (fun x y => (x == y) = true) xs ys := by
  induction xs generalizing ys with
  | nil => cases ys <;> simp
  | cons x xs ih =>
      cases ys with
      | nil => simp
      | cons y ys => rw [List.cons_beq_cons, Bool.and_eq_true, ih, List.forall₂_cons]

/-- How a relation between things that hold values rests on the equality of these values: `x` is
regular, is related to itself if its values equal themselves, and to nothing else if its values
equal nothing else. -/
structure RestsOn (r : α → α → Prop) (x : α) (values : List Value) : Prop where
  regular : Regular r x
  self_iff : r x x ↔ ∀ v ∈ values, (v == v) = true
  eq_of_rel : (∀ v ∈ values, ∀ w, (v == w) = true → v = w) → ∀ y, r x y → x = y

/-- How the equality of things that hold values rests on that of these values. -/
abbrev EqualityRestsOn [BEq α] (x : α) (values : List Value) : Prop :=
  RestsOn (fun a b : α => (a == b) = true) x values

namespace RestsOn

variable {r : α → α → Prop} {s : β → β → Prop} {x : α} {y : β} {vs ws : List Value}

theorem ofEq (x : α) : RestsOn Eq x [] where
  regular := .eq x
  self_iff := ⟨fun _ => List.forall_mem_nil _, fun _ => rfl⟩
  eq_of_rel _ _ h := h

theorem ofValue (v : Value) : EqualityRestsOn v [v] where
  regular := v.regular
  self_iff := by rw [List.forall_mem_singleton]
  eq_of_rel h := List.forall_mem_singleton.mp h

theorem ofBEq [BEq α] [LawfulBEq α] (x : α) : EqualityRestsOn x [] := by
  simpa only [EqualityRestsOn, beq_iff_eq] using ofEq x

theorem prod (hx : RestsOn r x vs) (hy : RestsOn s y ws) :
    RestsOn (fun p q : α × β => r p.1 q.1 ∧ s p.2 q.2) (x, y) (vs ++ ws) where
  regular := hx.regular.prod hy.regular
  self_iff := by
    rw [List.forall_mem_append]
    exact and_congr hx.self_iff hy.self_iff
  eq_of_rel hvalues p hp := by
    rw [List.forall_mem_append] at hvalues
    exact Prod.ext (hx.eq_of_rel hvalues.1 p.1 hp.1) (hy.eq_of_rel hvalues.2 p.2 hp.2)

theorem forall₂ {xs : List α} {values : α → List Value} (h : ∀ x ∈ xs, RestsOn r x (values x)) :
    RestsOn (List.Forall₂ r) xs (xs.flatMap values) where
  regular := .forall₂ fun x hx => (h x hx).regular
  self_iff := by
    rw [List.forall₂_same, List.forall_mem_flatMap]
    exact forall₂_congr fun x hx => (h x hx).self_iff
  eq_of_rel hvalues ys hxys := by
    rw [List.forall_mem_flatMap] at hvalues
    exact eq_of_forall₂ hxys fun x hx => (h x hx).eq_of_rel (hvalues x hx)

/-- What is told apart by a function, and compared by comparing the results of the function, rests
on the values of the result. -/
theorem comap (f : α → β) (hf : Function.Injective f) (hr : ∀ {a b}, r a b ↔ s (f a) (f b))
    (h : RestsOn s (f x) vs) : RestsOn r x vs where
  regular _ hxy :=
    ⟨hr.mpr (h.regular.symm (hr.mp hxy)), fun _ =>
      hr.trans ((h.regular.rel_iff (hr.mp hxy)).trans hr.symm)⟩
  self_iff := hr.trans h.self_iff
  eq_of_rel hvalues y hxy := hf (h.eq_of_rel hvalues (f y) (hr.mp hxy))

/-- What is built with a constructor, and equals only what is built with it from equal arguments,
rests on the values of its argument. -/
theorem image (c : α → β) (hc : ∀ {x w}, s (c x) w ↔ ∃ y, w = c y ∧ r x y)
    (h : RestsOn r x vs) : RestsOn s (c x) vs where
  regular := h.regular.image hc
  self_iff := by
    rw [← h.self_iff]
    constructor
    · intro hself
      obtain ⟨y, heq, hxy⟩ := hc.mp hself
      exact h.regular.refl_of_rel hxy
    · intro hself
      exact hc.mpr ⟨x, rfl, hself⟩
  eq_of_rel hvalues w hw := by
    obtain ⟨y, rfl, hxy⟩ := hc.mp hw
    rw [h.eq_of_rel hvalues y hxy]

theorem list [BEq α] {xs : List α} {values : α → List Value}
    (h : ∀ x ∈ xs, EqualityRestsOn x (values x)) : EqualityRestsOn xs (xs.flatMap values) :=
  (forall₂ h).comap id Function.injective_id list_beq_iff_forall₂

end RestsOn

/-! ### Types -/

mutual

theorem TypeReference.beq_iff_eq : ∀ a b : TypeReference, a.beq b = true ↔ a = b
  | .named _, b => by cases b <;> simp [TypeReference.beq]
  | .list xs, b => by
    have hitems := TypeReference.beqList_iff_eq xs
    cases b <;> simp [TypeReference.beq, hitems]
  | .nonNull inner, b => by
    have hinner := NonNullType.beq_iff_eq inner
    cases b <;> simp [TypeReference.beq, hinner]
termination_by structural a => a

theorem NonNullType.beq_iff_eq : ∀ a b : NonNullType, a.beq b = true ↔ a = b
  | .named _, b => by cases b <;> simp [NonNullType.beq]
  | .list xs, b => by
    have hitems := TypeReference.beqList_iff_eq xs
    cases b <;> simp [NonNullType.beq, hitems]
termination_by structural a => a

theorem TypeReference.beqList_iff_eq : ∀ xs ys : List TypeReference,
    TypeReference.beqList xs ys = true ↔ xs = ys
  | [], ys => by cases ys <;> simp [TypeReference.beqList]
  | x :: xs, ys => by
    have hitem := TypeReference.beq_iff_eq x
    have hrest := TypeReference.beqList_iff_eq xs
    cases ys <;> simp [TypeReference.beqList, hitem, hrest]
termination_by structural xs => xs

end

instance : LawfulBEq TypeReference where
  eq_of_beq := (TypeReference.beq_iff_eq _ _).mp
  rfl := (TypeReference.beq_iff_eq _ _).mpr rfl

instance : LawfulBEq NonNullType where
  eq_of_beq := (NonNullType.beq_iff_eq _ _).mp
  rfl := (NonNullType.beq_iff_eq _ _).mpr rfl

/-! ### Equality by the kind of a node -/

section

variable {V : Type} [BEq V]

theorem Argument.beq_iff {a b : Argument V} :
    (a == b) = true ↔ a.name = b.name ∧ (a.value == b.value) = true := by
  change (a.name == b.name && a.value == b.value) = true ↔ _
  rw [Bool.and_eq_true, beq_iff_eq]

theorem Arguments.beq_iff {a b : Arguments V} :
    (a == b) = true ↔ (a.items == b.items) = true :=
  Iff.rfl

theorem Directive.beq_iff {a b : Directive V} :
    (a == b) = true ↔ a.name = b.name ∧ (a.arguments == b.arguments) = true := by
  change (a.name == b.name && a.arguments == b.arguments) = true ↔ _
  rw [Bool.and_eq_true, beq_iff_eq]

theorem FragmentSpread.beq_iff {a b : FragmentSpread V} :
    (a == b) = true ↔ a.name = b.name ∧ (a.directives == b.directives) = true := by
  change (a.name == b.name && a.directives == b.directives) = true ↔ _
  rw [Bool.and_eq_true, beq_iff_eq]

theorem SelectionSet.beqList_eq {xs ys : List (Selection V)} :
    SelectionSet.beqList xs ys = (xs == ys) := by
  induction xs generalizing ys with
  | nil => cases ys <;> rfl
  | cons x xs ih =>
      cases ys with
      | nil => rfl
      | cons y ys =>
          rw [SelectionSet.beqList, ih]
          rfl

theorem SelectionSet.beq_iff {a b : SelectionSet V} :
    (a == b) = true ↔ (a.selections == b.selections) = true := by
  obtain ⟨xs⟩ := a
  obtain ⟨ys⟩ := b
  rw [← SelectionSet.beqList_eq]
  rfl

theorem Field.beq_iff {a b : Field V} :
    (a == b) = true ↔ a.aliasName = b.aliasName ∧ a.name = b.name ∧
      (a.arguments == b.arguments) = true ∧ (a.directives == b.directives) = true ∧
      (a.selectionSet == b.selectionSet) = true := by
  obtain ⟨aliasName₁, name₁, arguments₁, directives₁, set₁⟩ := a
  obtain ⟨aliasName₂, name₂, arguments₂, directives₂, set₂⟩ := b
  change (aliasName₁ == aliasName₂ && name₁ == name₂ && arguments₁ == arguments₂ &&
    directives₁ == directives₂ && set₁ == set₂) = true ↔ _
  simp only [Bool.and_eq_true, beq_iff_eq, and_assoc]

theorem InlineFragment.beq_iff {a b : InlineFragment V} :
    (a == b) = true ↔ a.typeCondition = b.typeCondition ∧
      (a.directives == b.directives) = true ∧ (a.selectionSet == b.selectionSet) = true := by
  obtain ⟨condition₁, directives₁, set₁⟩ := a
  obtain ⟨condition₂, directives₂, set₂⟩ := b
  change (condition₁ == condition₂ && directives₁ == directives₂ && set₁ == set₂) = true ↔ _
  simp only [Bool.and_eq_true, beq_iff_eq, and_assoc]

theorem VariableDefinition.beq_iff {a b : VariableDefinition V} :
    (a == b) = true ↔ a.var = b.var ∧ a.type = b.type ∧
      (a.defaultValue.toList == b.defaultValue.toList) = true := by
  have hdefault : (a.defaultValue.toList == b.defaultValue.toList) =
      (a.defaultValue == b.defaultValue) := by
    cases a.defaultValue <;> cases b.defaultValue <;> simp
  change (a.var == b.var && (a.type == b.type && a.defaultValue == b.defaultValue)) = true ↔ _
  rw [hdefault, Bool.and_eq_true, Bool.and_eq_true, beq_iff_eq, beq_iff_eq]

theorem Operation.beq_iff {a b : Operation V} :
    (a == b) = true ↔ a.type = b.type ∧ a.name = b.name ∧
      (a.variableDefinitions == b.variableDefinitions) = true ∧
      (a.directives == b.directives) = true ∧ (a.selectionSet == b.selectionSet) = true := by
  change (a.type == b.type && (a.name == b.name &&
    (a.variableDefinitions == b.variableDefinitions &&
      (a.directives == b.directives && a.selectionSet == b.selectionSet)))) = true ↔ _
  simp only [Bool.and_eq_true, beq_iff_eq]

theorem FragmentDefinition.beq_iff {a b : FragmentDefinition V} :
    (a == b) = true ↔ a.name = b.name ∧ a.typeCondition = b.typeCondition ∧
      (a.directives == b.directives) = true ∧ (a.selectionSet == b.selectionSet) = true := by
  change (a.name == b.name && (a.typeCondition == b.typeCondition &&
    (a.directives == b.directives && a.selectionSet == b.selectionSet))) = true ↔ _
  simp only [Bool.and_eq_true, beq_iff_eq]

theorem Document.beq_iff {a b : Document V} :
    (a == b) = true ↔ (a.definitions == b.definitions) = true :=
  Iff.rfl

theorem Selection.field_beq_iff {a : Field V} {selection : Selection V} :
    (Selection.field a == selection) = true ↔ ∃ b, selection = .field b ∧ (a == b) = true := by
  constructor
  · intro h
    cases selection with
    | field b => exact ⟨b, rfl, h⟩
    | _ => cases h
  · rintro ⟨b, rfl, h⟩
    exact h

theorem Selection.spread_beq_iff {a : FragmentSpread V} {selection : Selection V} :
    (Selection.spread a == selection) = true ↔ ∃ b, selection = .spread b ∧ (a == b) = true := by
  constructor
  · intro h
    cases selection with
    | spread b => exact ⟨b, rfl, h⟩
    | _ => cases h
  · rintro ⟨b, rfl, h⟩
    exact h

theorem Selection.inlineFragment_beq_iff {a : InlineFragment V} {selection : Selection V} :
    (Selection.inlineFragment a == selection) = true ↔
      ∃ b, selection = .inlineFragment b ∧ (a == b) = true := by
  constructor
  · intro h
    cases selection with
    | inlineFragment b => exact ⟨b, rfl, h⟩
    | _ => cases h
  · rintro ⟨b, rfl, h⟩
    exact h

theorem Definition.operation_beq_iff {a : Operation V} {definition : Definition V} :
    (Definition.operation a == definition) = true ↔
      ∃ b, definition = .operation b ∧ (a == b) = true := by
  constructor
  · intro h
    cases definition with
    | operation b => exact ⟨b, rfl, h⟩
    | _ => cases h
  · rintro ⟨b, rfl, h⟩
    exact h

theorem Definition.fragment_beq_iff {a : FragmentDefinition V} {definition : Definition V} :
    (Definition.fragment a == definition) = true ↔
      ∃ b, definition = .fragment b ∧ (a == b) = true := by
  constructor
  · intro h
    cases definition with
    | fragment b => exact ⟨b, rfl, h⟩
    | _ => cases h
  · rintro ⟨b, rfl, h⟩
    exact h

end

/-! ### The values on which it rests -/

theorem Argument.restsOn (argument : Argument Value) :
    EqualityRestsOn argument [argument.value] := by
  have hparts := (RestsOn.ofEq argument.name).prod (.ofValue argument.value)
  exact hparts.comap (fun a => (a.name, a.value)) (by rintro ⟨⟩ ⟨⟩ ⟨⟩; rfl) Argument.beq_iff

theorem Arguments.restsOn (arguments : Arguments Value) :
    EqualityRestsOn arguments arguments.values := by
  have hitems := RestsOn.list fun a (_ : a ∈ arguments.items) => a.restsOn
  rw [← List.map_eq_flatMap] at hitems
  exact hitems.comap Arguments.items (by rintro ⟨⟩ ⟨⟩ ⟨⟩; rfl) Arguments.beq_iff

theorem Directive.restsOn (directive : Directive Value) :
    EqualityRestsOn directive directive.values := by
  have hparts := (RestsOn.ofEq directive.name).prod directive.arguments.restsOn
  exact hparts.comap (fun a => (a.name, a.arguments)) (by rintro ⟨⟩ ⟨⟩ ⟨⟩; rfl) Directive.beq_iff

theorem Directive.restsOn_list (directives : List (Directive Value)) :
    EqualityRestsOn directives (directives.flatMap Directive.values) :=
  .list fun directive _ => directive.restsOn

theorem FragmentSpread.restsOn (spread : FragmentSpread Value) :
    EqualityRestsOn spread spread.values := by
  have hparts := (RestsOn.ofEq spread.name).prod (Directive.restsOn_list spread.directives)
  exact hparts.comap (fun a => (a.name, a.directives)) (by rintro ⟨⟩ ⟨⟩ ⟨⟩; rfl)
    FragmentSpread.beq_iff

theorem SelectionSet.restsOn_of_selections {set : SelectionSet Value}
    (h : ∀ selection ∈ set.selections, EqualityRestsOn selection selection.values) :
    EqualityRestsOn set set.values := by
  obtain ⟨selections⟩ := set
  have hselections := RestsOn.list h
  rw [← SelectionSet.valuesOfAll_eq] at hselections
  exact hselections.comap SelectionSet.selections (by rintro ⟨⟩ ⟨⟩ ⟨⟩; rfl) SelectionSet.beq_iff

theorem Field.restsOn_of_selectionSet {field : Field Value}
    (h : EqualityRestsOn field.selectionSet field.selectionSet.values) :
    EqualityRestsOn field field.values := by
  obtain ⟨aliasName, name, arguments, directives, set⟩ := field
  have hparts := (RestsOn.ofEq aliasName).prod ((RestsOn.ofEq name).prod
    (arguments.restsOn.prod ((Directive.restsOn_list directives).prod h)))
  exact hparts.comap (fun a => (a.aliasName, a.name, a.arguments, a.directives, a.selectionSet))
    (by rintro ⟨⟩ ⟨⟩ ⟨⟩; rfl) Field.beq_iff

theorem InlineFragment.restsOn_of_selectionSet {fragment : InlineFragment Value}
    (h : EqualityRestsOn fragment.selectionSet fragment.selectionSet.values) :
    EqualityRestsOn fragment fragment.values := by
  obtain ⟨typeCondition, directives, set⟩ := fragment
  have hparts := (RestsOn.ofEq typeCondition).prod ((Directive.restsOn_list directives).prod h)
  exact hparts.comap (fun a => (a.typeCondition, a.directives, a.selectionSet))
    (by rintro ⟨⟩ ⟨⟩ ⟨⟩; rfl) InlineFragment.beq_iff

theorem VariableDefinition.restsOn (definition : VariableDefinition Value) :
    EqualityRestsOn definition definition.values := by
  have hdefault := RestsOn.list fun v (_ : v ∈ definition.defaultValue.toList) => .ofValue v
  rw [List.flatMap_singleton'] at hdefault
  have hparts := (RestsOn.ofEq definition.var).prod ((RestsOn.ofEq definition.type).prod hdefault)
  exact hparts.comap (fun a => (a.var, a.type, a.defaultValue.toList))
    (by rintro ⟨_, _, _ | _⟩ ⟨_, _, _ | _⟩ ⟨⟩ <;> rfl) VariableDefinition.beq_iff

theorem Selection.restsOn (selection : Selection Value) :
    EqualityRestsOn selection selection.values := by
  induction selection using Selection.induction with
  | field f ih =>
      have hset := SelectionSet.restsOn_of_selections ih
      exact (Field.restsOn_of_selectionSet hset).image Selection.field field_beq_iff
  | spread s => exact s.restsOn.image Selection.spread spread_beq_iff
  | inlineFragment f ih =>
      have hset := SelectionSet.restsOn_of_selections ih
      exact (InlineFragment.restsOn_of_selectionSet hset).image Selection.inlineFragment
        inlineFragment_beq_iff

theorem SelectionSet.restsOn (set : SelectionSet Value) : EqualityRestsOn set set.values :=
  SelectionSet.restsOn_of_selections fun selection _ => selection.restsOn

theorem Field.restsOn (field : Field Value) : EqualityRestsOn field field.values :=
  Field.restsOn_of_selectionSet field.selectionSet.restsOn

theorem InlineFragment.restsOn (fragment : InlineFragment Value) :
    EqualityRestsOn fragment fragment.values :=
  InlineFragment.restsOn_of_selectionSet fragment.selectionSet.restsOn

theorem Operation.restsOn (operation : Operation Value) :
    EqualityRestsOn operation operation.values := by
  have hvariables := RestsOn.list fun d (_ : d ∈ operation.variableDefinitions) => d.restsOn
  have hparts := (RestsOn.ofEq operation.type).prod ((RestsOn.ofEq operation.name).prod
    (hvariables.prod ((Directive.restsOn_list operation.directives).prod
      operation.selectionSet.restsOn)))
  exact hparts.comap
    (fun a => (a.type, a.name, a.variableDefinitions, a.directives, a.selectionSet))
    (by rintro ⟨⟩ ⟨⟩ ⟨⟩; rfl) Operation.beq_iff

theorem FragmentDefinition.restsOn (definition : FragmentDefinition Value) :
    EqualityRestsOn definition definition.values := by
  have hparts := (RestsOn.ofEq definition.name).prod ((RestsOn.ofEq definition.typeCondition).prod
    ((Directive.restsOn_list definition.directives).prod definition.selectionSet.restsOn))
  exact hparts.comap (fun a => (a.name, a.typeCondition, a.directives, a.selectionSet))
    (by rintro ⟨⟩ ⟨⟩ ⟨⟩; rfl) FragmentDefinition.beq_iff

theorem Definition.restsOn (definition : Definition Value) :
    EqualityRestsOn definition definition.values := by
  cases definition with
  | operation op => exact op.restsOn.image Definition.operation operation_beq_iff
  | fragment frag => exact frag.restsOn.image Definition.fragment fragment_beq_iff

theorem Document.restsOn (document : Document Value) :
    EqualityRestsOn document document.values := by
  have hdefinitions := RestsOn.list fun d (_ : d ∈ document.definitions) => d.restsOn
  exact hdefinitions.comap Document.definitions (by rintro ⟨⟩ ⟨⟩ ⟨⟩; rfl) Document.beq_iff

theorem ObjectValue.restsOn (object : ObjectValue) :
    EqualityRestsOn object (object.fields.map Prod.snd) := by
  have hfields := RestsOn.forall₂ fun p (_ : p ∈ object.fields) =>
    (RestsOn.ofEq p.1).prod (.ofValue p.2)
  rw [List.map_eq_flatMap]
  exact hfields.comap ObjectValue.fields (by rintro ⟨⟩ ⟨⟩ ⟨⟩; rfl) Value.beqFields_iff

/-- Equality of nodes rests on that of the values they hold. -/
theorem Node.restsOn (node : Node) : EqualityRestsOn node node.values := by
  cases node
  case' name n => refine (RestsOn.ofBEq n).image Node.name ?_
  case' fragmentName n => refine (RestsOn.ofBEq n).image Node.fragmentName ?_
  case' enumValue v => refine (RestsOn.ofBEq v).image Node.enumValue ?_
  case' «variable» v => refine (RestsOn.ofBEq v).image Node.variable ?_
  case' value v => refine (RestsOn.ofValue v).image Node.value ?_
  case' objectValue o => refine o.restsOn.image Node.objectValue ?_
  case' argument a => refine a.restsOn.image Node.argument ?_
  case' arguments as => refine as.restsOn.image Node.arguments ?_
  case' directive d => refine d.restsOn.image Node.directive ?_
  case' typeReference t => refine (RestsOn.ofBEq t).image Node.typeReference ?_
  case' nonNullType t => refine (RestsOn.ofBEq t).image Node.nonNullType ?_
  case' variableDefinition d => refine d.restsOn.image Node.variableDefinition ?_
  case' field f => refine f.restsOn.image Node.field ?_
  case' selection s => refine s.restsOn.image Node.selection ?_
  case' selectionSet s => refine s.restsOn.image Node.selectionSet ?_
  case' fragmentSpread s => refine s.restsOn.image Node.fragmentSpread ?_
  case' inlineFragment f => refine f.restsOn.image Node.inlineFragment ?_
  case' fragmentDefinition d => refine d.restsOn.image Node.fragmentDefinition ?_
  case' operationType t => refine (RestsOn.ofBEq t).image Node.operationType ?_
  case' operation o => refine o.restsOn.image Node.operation ?_
  case' definition d => refine d.restsOn.image Node.definition ?_
  case' document d => refine d.restsOn.image Node.document ?_
  -- Nodes of different kinds are never equal.
  all_goals
    intro x w
    constructor
    · intro h
      cases w <;> first | cases h | exact ⟨_, rfl, h⟩
    · rintro ⟨y, rfl, h⟩
      exact h

/-! ### A partial equivalence -/

theorem Node.beq_self_iff (node : Node) :
    (node == node) = true ↔ ∀ part ∈ node.parts, part.isNaN = false := by
  rw [node.restsOn.self_iff, parts, List.forall_mem_flatMap]
  exact forall₂_congr fun value _ => value.beq_self_iff

/-- Equal nodes are the same, unless there is a zero or a map with several entries in them. -/
theorem Node.eq_of_beq {a b : Node} (hab : (a == b) = true)
    (h : ∀ part ∈ a.parts, part.isZero = false ∧ part.isReorderable = false) : a = b := by
  rw [parts, List.forall_mem_flatMap] at h
  exact a.restsOn.eq_of_rel (fun v hv w hvw => Value.eq_of_beq hvw (h v hv)) b hab

/-- Maps that are built from entries with distinct keys are equal if and only if the entries of the
one can be put in such an order that they equal those of the other. -/
theorem Value.ofPairs_beq_iff {xs ys : List (Name × Value)} (hxs : Entries.Distinct xs)
    (hys : Entries.Distinct ys) :
    (ofPairs xs == ofPairs ys) = true ↔ Matched SameEntry xs ys := by
  rw [ofPairs, ofPairs, Entries.collect_of_distinct hxs, Entries.collect_of_distinct hys,
    map_beq_iff]
  simp only [map.injEq, exists_eq_left']

theorem Arguments.beq_iff_forall₂ {as bs : Arguments Value} :
    (as == bs) = true ↔ List.Forall₂
      (fun a b : Argument Value => a.name = b.name ∧ (a.value == b.value) = true)
      as.items bs.items := by
  rw [Arguments.beq_iff, list_beq_iff_forall₂]
  simp only [Argument.beq_iff]

/-- Equality of nodes is symmetric and transitive, and a node equals itself if and only if there is
no NaN in it.  Maps built from entries with distinct keys are equal if and only if the entries match
in some order, that is, if they are as many and each key is found in the other map with an equal
value.  Objects, lists and arguments are equal only in the order they have. -/
theorem Node.beq_partial_equivalence :
    (∀ a b : Node, (a == b) = true → (b == a) = true) ∧
    (∀ a b c : Node, (a == b) = true → (b == c) = true → (a == c) = true) ∧
    (∀ a : Node, (a == a) = true ↔ ∀ part ∈ a.parts, part.isNaN = false) ∧
    (∀ xs ys : List (Name × Value), Entries.Distinct xs → Entries.Distinct ys →
      ((Value.ofPairs xs == Value.ofPairs ys) = true ↔
        ∃ zs, List.Forall₂ Value.SameEntry xs zs ∧ zs.Perm ys) ∧
      ((Value.ofPairs xs == Value.ofPairs ys) = true ↔
        xs.length = ys.length ∧ ∀ p ∈ xs, ∃ q ∈ ys, Value.SameEntry p q)) ∧
    (∀ xs ys, (Value.object xs == Value.object ys) = true ↔ List.Forall₂ Value.SameEntry xs ys) ∧
    (∀ a b : ObjectValue, (a == b) = true ↔ List.Forall₂ Value.SameEntry a.fields b.fields) ∧
    (∀ xs ys, (Value.list xs == Value.list ys) = true ↔
      List.Forall₂ (fun x y => (x == y) = true) xs ys) ∧
    ∀ as bs : Arguments Value, (as == bs) = true ↔ List.Forall₂
      (fun a b : Argument Value => a.name = b.name ∧ (a.value == b.value) = true)
      as.items bs.items := by
  refine ⟨?_, ?_, Node.beq_self_iff, ?_, ?_, ?_, ?_, fun _ _ => Arguments.beq_iff_forall₂⟩
  · intro a b hab
    exact a.restsOn.regular.symm hab
  · intro a b c hab hbc
    exact a.restsOn.regular.trans hab hbc
  · intro xs ys hxs hys
    have hmatched := Value.ofPairs_beq_iff hxs hys
    exact ⟨hmatched, hmatched.trans (Value.matched_iff_of_distinct hxs)⟩
  · intro xs ys
    rw [Value.object_beq_iff]
    simp only [Value.object.injEq, exists_eq_left']
  · intro a b
    exact Value.beqFields_iff
  · intro xs ys
    rw [Value.list_beq_iff]
    simp only [Value.list.injEq, exists_eq_left']

/-- Two maps with the same entries in another order, one of them a list with zeros of either
sign. -/
theorem Node.beq_partial_equivalence_reordered :
    let count : Name × Value := (⟨"count"⟩, .int 2)
    let zeros (sign : BitVec 32) : Name × Value := (⟨"zeros"⟩, .list [.single ⟨sign⟩])
    let first := [count, zeros 0]
    let second := [zeros 0x80000000, count]
    Entries.Distinct first ∧ Entries.Distinct second ∧
      (Value.ofPairs first == Value.ofPairs second) = true ∧
      (Node.value (.ofPairs second) == Node.value (.ofPairs first)) = true ∧
      (Node.value (.ofPairs first) == Node.value (.ofPairs first)) = true := by
  intro count zeros first second
  obtain ⟨hsymm, htrans, -, hmaps, -⟩ := Node.beq_partial_equivalence
  have hfirst : Entries.Distinct first := show (Entries.keys first).Nodup by decide
  have hsecond : Entries.Distinct second := show (Entries.keys second).Nodup by decide
  have hbeq : (Value.ofPairs first == Value.ofPairs second) = true := by
    apply (hmaps first second hfirst hsecond).2.mpr
    refine ⟨rfl, ?_⟩
    rw [List.forall_mem_cons, List.forall_mem_singleton]
    exact ⟨⟨count, by simp [second], rfl, rfl⟩, ⟨zeros 0x80000000, by simp [second], rfl, rfl⟩⟩
  have hback := hsymm (.value (.ofPairs first)) (.value (.ofPairs second)) hbeq
  exact ⟨hfirst, hsecond, hbeq, hback, htrans _ _ _ hbeq hback⟩

end GraphQLText

import GraphQLText.Proofs.Printing.FirstFault
import GraphQLText.Proofs.Tree.NodeEquality

/-!
# The texts of equal nodes

Equal nodes need not have the same text: the entries of two equal maps can come in different orders,
and the two zeros are equal.  But all other leaves of equal nodes are the same, and a zero is never
refused.  So a node has a text if its equals have one, and the same text if there is neither a zero
nor a map with several entries in it.
-/

namespace GraphQLText

namespace Leaf

/-- None of the leaves has a fault. -/
def AllAcceptable (leaves : List Leaf) : Prop :=
  ∀ leaf ∈ leaves, leaf.IsAcceptable

theorem allAcceptable_cons {leaf : Leaf} {rest : List Leaf} :
    AllAcceptable (leaf :: rest) ↔ leaf.IsAcceptable ∧ AllAcceptable rest :=
  List.forall_mem_cons

theorem allAcceptable_append {leaves rest : List Leaf} :
    AllAcceptable (leaves ++ rest) ↔ AllAcceptable leaves ∧ AllAcceptable rest :=
  List.forall_mem_append

theorem allAcceptable_flatMap {α : Type} {xs : List α} {leaves : α → List Leaf} :
    AllAcceptable (xs.flatMap leaves) ↔ ∀ x ∈ xs, AllAcceptable (leaves x) :=
  List.forall_mem_flatMap

theorem allAcceptable_flatMap_iff {α : Type} [BEq α] {xs ys : List α} {leaves : α → List Leaf}
    (h : (xs == ys) = true)
    (hitems : ∀ x ∈ xs, ∀ y, (x == y) = true →
      (AllAcceptable (leaves x) ↔ AllAcceptable (leaves y))) :
    AllAcceptable (xs.flatMap leaves) ↔ AllAcceptable (ys.flatMap leaves) := by
  rw [allAcceptable_flatMap, allAcceptable_flatMap]
  exact forall_mem_iff_of_forall₂ (list_beq_iff_forall₂.mp h) hitems

end Leaf

open Leaf

section

variable {f : BinaryFormat} {x y : Binary f}

theorem Binary.isFinite_of_isZero (hf : 0 < f.exponentBits) (h : x.isZero = true) :
    x.isFinite = true := by
  simp only [isZero, isSubnormal, Bool.and_eq_true, beq_iff_eq] at h
  have hpow := Nat.one_lt_two_pow (Nat.ne_of_gt hf)
  rw [isFinite, h.1, bne_iff_ne, Ne, ← BitVec.toNat_inj, BitVec.toNat_allOnes]
  change ¬ (0#f.exponentBits).toNat = _
  rw [BitVec.toNat_zero]
  omega

/-- A zero is acceptable, and other numbers equal themselves only. -/
theorem Leaf.isAcceptable_number_iff (hf : 0 < f.exponentBits) (h : (x == y) = true) :
    (number x).IsAcceptable ↔ (number y).IsAcceptable := by
  cases hzero : x.isZero with
  | true =>
      have hy := (Binary.beq_iff_of_isZero hzero).mp h
      have hx := Binary.isFinite_of_isZero hf hzero
      have hy := Binary.isFinite_of_isZero hf hy
      simp [IsAcceptable, fault?, hx, hy]
  | false => rw [((Binary.beq_iff_of_not_isZero hzero).mp h).2]

end

/-! ### Leaves of equal values -/

namespace Value

theorem allAcceptable_leavesOfItems {items : List Value} :
    AllAcceptable (leavesOfItems items) ↔ ∀ item ∈ items, AllAcceptable item.leaves := by
  induction items with
  | nil => simp [leavesOfItems, AllAcceptable]
  | cons item rest ih => rw [leavesOfItems, allAcceptable_append, ih, List.forall_mem_cons]

theorem allAcceptable_leavesOfFields {fields : List (Name × Value)} :
    AllAcceptable (leavesOfFields fields) ↔
      ∀ field ∈ fields, (name field.1).IsAcceptable ∧ AllAcceptable field.2.leaves := by
  induction fields with
  | nil => simp [leavesOfFields, AllAcceptable]
  | cons field rest ih =>
      rw [leavesOfFields, allAcceptable_cons, allAcceptable_append, ih, List.forall_mem_cons,
        and_assoc]

theorem SameEntry.isAcceptable_iff {p q : Name × Value} (h : SameEntry p q)
    (hvalue : ∀ w, (p.2 == w) = true → (AllAcceptable p.2.leaves ↔ AllAcceptable w.leaves)) :
    (name p.1).IsAcceptable ∧ AllAcceptable p.2.leaves ↔
      (name q.1).IsAcceptable ∧ AllAcceptable q.2.leaves := by
  rw [h.1, hvalue q.2 h.2]

/-- The leaves of a value are all acceptable if and only if those of its equals are.  The order in
which the entries of a map come does not matter for this. -/
theorem allAcceptable_leaves_iff {v w : Value} (h : (v == w) = true) :
    AllAcceptable v.leaves ↔ AllAcceptable w.leaves := by
  induction v using Value.induction generalizing w with
  | atom v hv => rw [(beq_iff_eq_of_isAtom hv).mp h]
  | single x =>
      obtain ⟨y, rfl, hxy⟩ := single_beq_iff.mp h
      have hnumber := isAcceptable_number_iff (by decide) hxy
      simpa [leaves, AllAcceptable] using hnumber
  | double x =>
      obtain ⟨y, rfl, hxy⟩ := double_beq_iff.mp h
      have hnumber := isAcceptable_number_iff (by decide) hxy
      simpa [leaves, AllAcceptable] using hnumber
  | list items ih =>
      obtain ⟨ys, rfl, hys⟩ := list_beq_iff.mp h
      rw [leaves, leaves, allAcceptable_leavesOfItems, allAcceptable_leavesOfItems]
      exact forall_mem_iff_of_forall₂ hys fun x hx y => ih x hx
  | object fields ih =>
      obtain ⟨ys, rfl, hys⟩ := object_beq_iff.mp h
      rw [leaves, leaves, allAcceptable_leavesOfFields, allAcceptable_leavesOfFields]
      exact forall_mem_iff_of_forall₂ hys fun p hp q hpq => hpq.isAcceptable_iff fun _ => ih p hp
  | map entries ih =>
      obtain ⟨ys, rfl, hys⟩ := map_beq_iff.mp h
      rw [leaves, leaves, allAcceptable_leavesOfFields, allAcceptable_leavesOfFields]
      exact hys.forall_mem_iff fun p hp q hpq => hpq.isAcceptable_iff fun _ => ih p hp

end Value

/-! ### Leaves of equal nodes -/

theorem Argument.allAcceptable_leaves_iff {a b : Argument Value} (h : (a == b) = true) :
    AllAcceptable a.leaves ↔ AllAcceptable b.leaves := by
  obtain ⟨hname, hvalue⟩ := beq_iff.mp h
  rw [leaves, leaves, allAcceptable_cons, allAcceptable_cons, hname,
    Value.allAcceptable_leaves_iff hvalue]

theorem Arguments.allAcceptable_leaves_iff {a b : Arguments Value} (h : (a == b) = true) :
    AllAcceptable a.leaves ↔ AllAcceptable b.leaves :=
  allAcceptable_flatMap_iff (beq_iff.mp h) fun _ _ _ => Argument.allAcceptable_leaves_iff

theorem Directive.allAcceptable_leaves_iff {a b : Directive Value} (h : (a == b) = true) :
    AllAcceptable a.leaves ↔ AllAcceptable b.leaves := by
  obtain ⟨hname, harguments⟩ := beq_iff.mp h
  rw [leaves, leaves, allAcceptable_cons, allAcceptable_cons, hname,
    Arguments.allAcceptable_leaves_iff harguments]

theorem Directive.allAcceptable_leavesOfAll_iff {xs ys : List (Directive Value)}
    (h : (xs == ys) = true) :
    AllAcceptable (leavesOfAll xs) ↔ AllAcceptable (leavesOfAll ys) :=
  allAcceptable_flatMap_iff h fun _ _ _ => Directive.allAcceptable_leaves_iff

theorem FragmentSpread.allAcceptable_leaves_iff {a b : FragmentSpread Value} (h : (a == b) = true) :
    AllAcceptable a.leaves ↔ AllAcceptable b.leaves := by
  obtain ⟨hname, hdirectives⟩ := beq_iff.mp h
  rw [leaves, leaves, allAcceptable_cons, allAcceptable_cons, hname,
    Directive.allAcceptable_leavesOfAll_iff hdirectives]

theorem SelectionSet.leavesOfAll_eq (selections : List (Selection Value)) :
    leavesOfAll selections = selections.flatMap Selection.leaves := by
  induction selections with
  | nil => rfl
  | cons selection rest ih => rw [leavesOfAll, ih, List.flatMap_cons]

/-- Selection sets have the same acceptability if their selections do. -/
theorem SelectionSet.allAcceptable_leaves_iff_of_selections {a b : SelectionSet Value}
    (h : (a == b) = true)
    (hselections : ∀ selection ∈ a.selections, ∀ other, (selection == other) = true →
      (AllAcceptable selection.leaves ↔ AllAcceptable other.leaves)) :
    AllAcceptable a.leaves ↔ AllAcceptable b.leaves := by
  obtain ⟨xs⟩ := a
  obtain ⟨ys⟩ := b
  rw [leaves, leaves, leavesOfAll_eq, leavesOfAll_eq]
  exact allAcceptable_flatMap_iff (SelectionSet.beq_iff.mp h) hselections

theorem Field.allAcceptable_leaves_iff_of_selectionSet {a b : Field Value} (h : (a == b) = true)
    (hset : AllAcceptable a.selectionSet.leaves ↔ AllAcceptable b.selectionSet.leaves) :
    AllAcceptable a.leaves ↔ AllAcceptable b.leaves := by
  obtain ⟨halias, hname, harguments, hdirectives, -⟩ := beq_iff.mp h
  obtain ⟨⟩ := a
  obtain ⟨⟩ := b
  obtain rfl := halias
  obtain rfl := hname
  simp only [leaves, allAcceptable_append, allAcceptable_cons, hset,
    Arguments.allAcceptable_leaves_iff harguments,
    Directive.allAcceptable_leavesOfAll_iff hdirectives]

theorem InlineFragment.allAcceptable_leaves_iff_of_selectionSet {a b : InlineFragment Value}
    (h : (a == b) = true)
    (hset : AllAcceptable a.selectionSet.leaves ↔ AllAcceptable b.selectionSet.leaves) :
    AllAcceptable a.leaves ↔ AllAcceptable b.leaves := by
  obtain ⟨hcondition, hdirectives, -⟩ := beq_iff.mp h
  obtain ⟨⟩ := a
  obtain ⟨⟩ := b
  obtain rfl := hcondition
  simp only [leaves, allAcceptable_append, hset,
    Directive.allAcceptable_leavesOfAll_iff hdirectives]

theorem Selection.allAcceptable_leaves_iff {a b : Selection Value} (h : (a == b) = true) :
    AllAcceptable a.leaves ↔ AllAcceptable b.leaves := by
  induction a using Selection.induction generalizing b with
  | field f ih =>
      obtain ⟨g, rfl, hfg⟩ := field_beq_iff.mp h
      apply Field.allAcceptable_leaves_iff_of_selectionSet hfg
      apply SelectionSet.allAcceptable_leaves_iff_of_selections (Field.beq_iff.mp hfg).2.2.2.2
      exact fun selection hselection _ => ih selection hselection
  | spread s =>
      obtain ⟨t, rfl, hst⟩ := spread_beq_iff.mp h
      exact FragmentSpread.allAcceptable_leaves_iff hst
  | inlineFragment f ih =>
      obtain ⟨g, rfl, hfg⟩ := inlineFragment_beq_iff.mp h
      apply InlineFragment.allAcceptable_leaves_iff_of_selectionSet hfg
      apply SelectionSet.allAcceptable_leaves_iff_of_selections (InlineFragment.beq_iff.mp hfg).2.2
      exact fun selection hselection _ => ih selection hselection

theorem SelectionSet.allAcceptable_leaves_iff {a b : SelectionSet Value} (h : (a == b) = true) :
    AllAcceptable a.leaves ↔ AllAcceptable b.leaves :=
  allAcceptable_leaves_iff_of_selections h fun _ _ _ => Selection.allAcceptable_leaves_iff

theorem VariableDefinition.allAcceptable_leaves_iff {a b : VariableDefinition Value}
    (h : (a == b) = true) : AllAcceptable a.leaves ↔ AllAcceptable b.leaves := by
  obtain ⟨hvar, htype, hdefault⟩ := beq_iff.mp h
  have hleaves := allAcceptable_flatMap_iff hdefault fun _ _ _ => Value.allAcceptable_leaves_iff
  rw [leaves, leaves, allAcceptable_cons, allAcceptable_cons, allAcceptable_append,
    allAcceptable_append, hvar, htype, hleaves]

theorem Operation.allAcceptable_leaves_iff {a b : Operation Value} (h : (a == b) = true) :
    AllAcceptable a.leaves ↔ AllAcceptable b.leaves := by
  obtain ⟨-, hname, hvariables, hdirectives, hset⟩ := beq_iff.mp h
  have hleaves := allAcceptable_flatMap_iff hvariables fun _ _ _ =>
    VariableDefinition.allAcceptable_leaves_iff
  have hnames : a.nameLeaves = b.nameLeaves := by rw [nameLeaves, nameLeaves, hname]
  simp only [leaves, allAcceptable_append, hnames, hleaves,
    Directive.allAcceptable_leavesOfAll_iff hdirectives,
    SelectionSet.allAcceptable_leaves_iff hset]

theorem FragmentDefinition.allAcceptable_leaves_iff {a b : FragmentDefinition Value}
    (h : (a == b) = true) : AllAcceptable a.leaves ↔ AllAcceptable b.leaves := by
  obtain ⟨hname, hcondition, hdirectives, hset⟩ := beq_iff.mp h
  simp only [leaves, allAcceptable_cons, allAcceptable_append, hname, hcondition,
    Directive.allAcceptable_leavesOfAll_iff hdirectives,
    SelectionSet.allAcceptable_leaves_iff hset]

theorem Definition.allAcceptable_leaves_iff {a b : Definition Value} (h : (a == b) = true) :
    AllAcceptable a.leaves ↔ AllAcceptable b.leaves := by
  cases a with
  | operation op =>
      obtain ⟨other, rfl, hop⟩ := operation_beq_iff.mp h
      exact Operation.allAcceptable_leaves_iff hop
  | fragment frag =>
      obtain ⟨other, rfl, hfrag⟩ := fragment_beq_iff.mp h
      exact FragmentDefinition.allAcceptable_leaves_iff hfrag

theorem Document.allAcceptable_leaves_iff {a b : Document Value} (h : (a == b) = true) :
    AllAcceptable a.leaves ↔ AllAcceptable b.leaves :=
  allAcceptable_flatMap_iff (beq_iff.mp h) fun _ _ _ => Definition.allAcceptable_leaves_iff

/-- Objects on their own are compared as they are as values. -/
theorem ObjectValue.allAcceptable_leaves_iff {a b : ObjectValue} (h : (a == b) = true) :
    AllAcceptable (Value.leavesOfFields a.fields) ↔ AllAcceptable (Value.leavesOfFields b.fields) :=
  Value.allAcceptable_leaves_iff (v := a.toValue) (w := b.toValue) h

theorem Node.allAcceptable_leaves_iff {a b : Node} (h : (a == b) = true) :
    AllAcceptable a.leaves ↔ AllAcceptable b.leaves := by
  cases a <;> cases b <;> try cases h
  case value.value => exact Value.allAcceptable_leaves_iff h
  case objectValue.objectValue => exact ObjectValue.allAcceptable_leaves_iff h
  case argument.argument => exact Argument.allAcceptable_leaves_iff h
  case arguments.arguments => exact Arguments.allAcceptable_leaves_iff h
  case directive.directive => exact Directive.allAcceptable_leaves_iff h
  case variableDefinition.variableDefinition => exact VariableDefinition.allAcceptable_leaves_iff h
  case field.field f g => exact Selection.allAcceptable_leaves_iff (a := .field f) (b := .field g) h
  case selection.selection => exact Selection.allAcceptable_leaves_iff h
  case selectionSet.selectionSet => exact SelectionSet.allAcceptable_leaves_iff h
  case fragmentSpread.fragmentSpread => exact FragmentSpread.allAcceptable_leaves_iff h
  case inlineFragment.inlineFragment f g =>
    exact Selection.allAcceptable_leaves_iff (a := .inlineFragment f) (b := .inlineFragment g) h
  case fragmentDefinition.fragmentDefinition => exact FragmentDefinition.allAcceptable_leaves_iff h
  case operation.operation => exact Operation.allAcceptable_leaves_iff h
  case definition.definition => exact Definition.allAcceptable_leaves_iff h
  case document.document => exact Document.allAcceptable_leaves_iff h
  -- The other kinds hold no values.
  all_goals rw [Node.eq_of_beq h (List.forall_mem_nil _)]

theorem Node.isEmptyDocument_iff_of_beq {a b : Node} (h : (a == b) = true) :
    a.IsEmptyDocument ↔ b.IsEmptyDocument := by
  constructor
  · rintro rfl
    exact (Node.eq_of_beq h (List.forall_mem_nil _)).symm
  · rintro rfl
    exact (Node.eq_of_beq (a.restsOn.regular.symm h) (List.forall_mem_nil _)).symm

theorem Node.exists_print_iff_allAcceptable (node : Node) :
    (∃ text, node.print = .ok text) ↔ ¬ node.IsEmptyDocument ∧ AllAcceptable node.leaves := by
  by_cases hempty : node.IsEmptyDocument
  · simp [node.print_emptyDocument hempty, hempty]
  · rw [exists_print_eq_ok_iff hempty, List.findSome?_eq_none_iff, and_iff_right hempty]
    rfl

/-- Of equal nodes, all have a text or none has.  The text or the fault of a node is that of its
equals, unless there is a zero or a map with several entries in it. -/
theorem Node.print_of_beq {a b : Node} (h : (a == b) = true) :
    ((∃ text, a.print = .ok text) ↔ ∃ text, b.print = .ok text) ∧
      ((∀ part ∈ a.parts, part.isZero = false ∧ part.isReorderable = false) →
        a.print = b.print) := by
  constructor
  · rw [exists_print_iff_allAcceptable, exists_print_iff_allAcceptable,
      isEmptyDocument_iff_of_beq h, allAcceptable_leaves_iff h]
  · intro hparts
    rw [Node.eq_of_beq h hparts]

/-- Two maps that differ in the order of their entries and in the sign of a zero, and a map that is
built with a repeated key. -/
theorem Node.print_of_beq_reordered :
    let size : Name × Value := (⟨"size"⟩, .double ⟨0x4004000000000000⟩)
    let zero (sign : BitVec 64) : Name × Value := (⟨"zero"⟩, .double ⟨sign⟩)
    let first : Node := .value (.map [size, zero 0])
    let second : Node := .value (.map [zero 0x8000000000000000, size])
    let repeated : Node := .value (.ofPairs [(⟨"size"⟩, .null), size])
    let alone : Node := .value (.map [size])
    ((first == second) = true ∧ first.print = .ok "\x7bsize: 2.5 zero: 0.0\x7d" ∧
      ∃ text, second.print = .ok text) ∧
    ((repeated == alone) = true ∧
      (∀ part ∈ repeated.parts, part.isZero = false ∧ part.isReorderable = false) ∧
      repeated.print = alone.print) := by
  intro size zero first second repeated alone
  have hbeq : (first == second) = true := by decide
  have hprint : first.print = .ok "\x7bsize: 2.5 zero: 0.0\x7d" := by decide +kernel
  have hsecond := (Node.print_of_beq hbeq).1.mp ⟨_, hprint⟩
  have halone : (repeated == alone) = true := by decide
  have hparts : ∀ part ∈ repeated.parts, part.isZero = false ∧ part.isReorderable = false := by
    decide
  exact ⟨⟨hbeq, hprint, hsecond⟩, halone, hparts, (Node.print_of_beq halone).2 hparts⟩

end GraphQLText

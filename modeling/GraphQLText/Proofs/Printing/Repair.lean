import GraphQLText.Proofs.Printing.FirstFault
import GraphQLText.Proofs.Printing.Shape

/-!
# Repairing a node

A node is repaired by replacing each leaf that is not acceptable by one of its kind that is, and
changing nothing else.  A printer that stops at a fault has written the beginning of the text of
every repair: the mark with the fault has left no trace, and the marks before it are those of the
repair too.
-/

namespace GraphQLText

open Mark

/-- A leaf is repaired by an acceptable one, and by no other than itself if it is acceptable
already. -/
def Leaf.RepairedBy (a b : Leaf) : Prop :=
  b.IsAcceptable ∧ (a.IsAcceptable → b = a)

/-- A node is repaired by repairing its leaves.  A document without definitions has no leaves to
repair, and is repaired by any document with one definition that has a text. -/
inductive Node.RepairedBy : Node → Node → Prop
  | leaves {a b : Node} :
      ¬ a.IsEmptyDocument → a.Alike Leaf.RepairedBy Eq b → Node.RepairedBy a b
  | emptyDocument {definition : Definition Value} {text : String} :
      (Node.document ⟨[definition]⟩).print = .ok text →
        Node.RepairedBy (.document ⟨[]⟩) (.document ⟨[definition]⟩)

/-! ### Leaves and marks -/

/-- The repair of a mark has no fault. -/
theorem Mark.Alike.fault?_eq_none {m n : Mark} (h : m.Alike Leaf.RepairedBy Eq n) :
    n.fault? = none := by
  cases h with
  | leaf hleaf => exact hleaf.1
  | _ => rfl

/-- A mark without a fault is its own repair. -/
theorem Mark.Alike.eq_of_fault?_eq_none {m n : Mark} (h : m.Alike Leaf.RepairedBy Eq n)
    (hfault : m.fault? = none) : n = m := by
  cases h with
  | leaf hleaf => rw [hleaf.2 hfault]
  | string hcontents => rw [hcontents]
  | _ => rfl

/-- A mark with a fault is a leaf, and so is its repair. -/
theorem Mark.Alike.exists_leaf {m n : Mark} (h : m.Alike Leaf.RepairedBy Eq n) {fault : Fault}
    (hfault : m.fault? = some fault) :
    ∃ a b, m = .leaf a ∧ n = .leaf b ∧ a.fault? = some fault ∧ b.IsAcceptable := by
  cases h with
  | leaf hleaf => exact ⟨_, _, rfl, rfl, hfault, hleaf.1⟩
  | _ => cases hfault

/-- The repair of a sequence of marks has no fault. -/
theorem Mark.AlikeAll.firstFault?_eq_none {ms ns : List Mark}
    (h : AlikeAll Leaf.RepairedBy Eq ms ns) : firstFault? ns = none := by
  induction h with
  | nil => rfl
  | cons hmark _ ih => rw [firstFault?_cons, hmark.fault?_eq_none, Option.none_or, ih]

/-- Up to its first fault, a sequence of marks is its own repair. -/
theorem Mark.AlikeAll.exists_eq_append {ms ns : List Mark}
    (h : AlikeAll Leaf.RepairedBy Eq ms ns) {fault : Fault}
    (hfault : firstFault? ms = some fault) :
    ∃ before a b after after', ms = before ++ .leaf a :: after ∧
      ns = before ++ .leaf b :: after' ∧ firstFault? before = none ∧
      a.fault? = some fault ∧ b.IsAcceptable := by
  induction h with
  | nil => simp at hfault
  | @cons m n ms ns hmark hrest ih =>
      cases hm : m.fault? with
      | some first =>
          obtain ⟨a, b, rfl, rfl, ha, hb⟩ := hmark.exists_leaf hm
          rw [firstFault?_cons, hm, Option.some_or] at hfault
          exact ⟨[], a, b, ms, ns, rfl, rfl, rfl, ha.trans (hm ▸ hfault), hb⟩
      | none =>
          rw [firstFault?_cons, hm, Option.none_or] at hfault
          obtain ⟨before, a, b, after, after', rfl, rfl, hbefore, ha, hb⟩ := ih hfault
          rw [hmark.eq_of_fault?_eq_none hm]
          refine ⟨m :: before, a, b, after, after', rfl, rfl, ?_, ha, hb⟩
          rw [firstFault?_cons, hm, Option.none_or, hbefore]

/-! ### Nodes -/

/-- A document with one definition has a text only if that has a first character. -/
theorem Definition.print_ne_empty {definition : Definition Value} {text : String}
    (h : (Node.document ⟨[definition]⟩).print = .ok text) : text ≠ "" := by
  obtain ⟨-, -, rfl⟩ := Node.print_eq_ok_iff.mp h
  have hmarks : ∃ w rest, definition.marks = word w :: rest ∧ w.toList ≠ [] := by
    cases definition with
    | operation op =>
        refine ⟨op.type.keyword, _, rfl, ?_⟩
        cases op.type <;> decide
    | fragment frag => exact ⟨"fragment", _, rfl, by decide⟩
  obtain ⟨w, rest, hmarks, hw⟩ := hmarks
  intro hempty
  have hlist := congrArg String.toList hempty
  rw [String.toList_ofList, Node.marks, Document.marks, List.map_singleton, spaced, hmarks,
    List.cons_append, List.flatMap_cons] at hlist
  exact hw (List.append_eq_nil_iff.mp hlist).1

/-- What stopping at a fault says about the marks of a node, and about the text that is left. -/
theorem Node.appendTo_printer_eq_error {node : Node} {fault : Fault} {before after : String}
    (hempty : ¬ node.IsEmptyDocument)
    (hfault : node.printer.appendTo before = (.error fault, after)) :
    firstFault? node.marks = some fault ∧
      after = before ++ String.ofList (written node.marks) := by
  rw [node.printer_writes hempty, Prod.mk.injEq, outcome] at hfault
  obtain ⟨houtcome, hafter⟩ := hfault
  refine ⟨?_, hafter.symm⟩
  cases h : firstFault? node.marks with
  | none =>
      rw [h] at houtcome
      cases houtcome
  | some first =>
      rw [h] at houtcome
      exact congrArg some (Except.error.inj houtcome)

/-- Where the marks of a node and those of its repair part, one has a leaf with a fault and the
other what this leaf is replaced by. -/
theorem Node.exists_marks_eq_of_alike {node other : Node} {fault : Fault}
    (halike : node.Alike Leaf.RepairedBy Eq other) (hfirst : firstFault? node.marks = some fault) :
    ∃ earlier leaf replacement later later' rest,
      node.leaves = earlier ++ leaf :: later ∧
      other.leaves = earlier ++ replacement :: later' ∧
      leaf.fault? = some fault ∧ replacement.IsAcceptable ∧
      other.marks.flatMap Mark.text = written node.marks ++ (replacement.text ++ rest) := by
  obtain ⟨before, a, b, after, after', hnode, hother, hbefore, ha, hb⟩ :=
    halike.marks.exists_eq_append hfirst
  refine ⟨Mark.leaves before, a, b, Mark.leaves after, Mark.leaves after',
    after'.flatMap Mark.text, ?_, ?_, ha, hb, ?_⟩
  · rw [← node.leaves_marks, hnode, leaves_append, leaves_leaf]
  · rw [← other.leaves_marks, hother, leaves_append, leaves_leaf]
  · have hwritten : written node.marks = before.flatMap Mark.text := by
      rw [hnode, written_append_of_none _ hbefore, written_eq_flatMap hbefore, written,
        fault?_leaf, ha]
      exact List.append_nil _
    rw [hwritten, hother, List.flatMap_append, List.flatMap_cons]
    rfl

/-- A printer that stops at a fault has written the beginning of the text of every repair, and not
all of it.  The text goes on with what the leaf with the fault is replaced by. -/
theorem Node.appendTo_printer_of_repairedBy {node other : Node} {fault : Fault}
    {before after : String} (hrepaired : node.RepairedBy other)
    (hfault : node.printer.appendTo before = (.error fault, after)) :
    ∃ part full, after = before ++ part ∧ other.print = .ok full ∧
      part.toList <+: full.toList ∧ part ≠ full ∧
      ((node.IsEmptyDocument ∧ part = "") ∨
        ∃ earlier leaf replacement later later' rest,
          node.leaves = earlier ++ leaf :: later ∧
          other.leaves = earlier ++ replacement :: later' ∧
          leaf.fault? = some fault ∧ replacement.IsAcceptable ∧
          full.toList = part.toList ++ (replacement.text ++ rest)) := by
  cases hrepaired with
  | @emptyDocument definition full hprint =>
      have hafter : after = before := by
        have hrun := hfault.symm.trans (Document.appendTo_printer_empty before)
        exact congrArg Prod.snd hrun
      refine ⟨"", full, ?_, hprint, List.nil_prefix, ?_, Or.inl ⟨rfl, rfl⟩⟩
      · rw [hafter, String.append_empty]
      · exact (Definition.print_ne_empty hprint).symm
  | leaves hempty halike =>
      obtain ⟨hfirst, hafter⟩ := node.appendTo_printer_eq_error hempty hfault
      have hprint := other.print_eq_ok (mt halike.isEmptyDocument_iff.mpr hempty)
        halike.marks.firstFault?_eq_none
      obtain ⟨earlier, leaf, replacement, later, later', rest, hleaves, hleaves', hleaf,
        hreplacement, hfull⟩ := Node.exists_marks_eq_of_alike halike hfirst
      refine ⟨_, _, hafter, hprint, ?_, ?_, Or.inr ⟨earlier, leaf, replacement, later, later',
        rest, hleaves, hleaves', hleaf, hreplacement, ?_⟩⟩
      · rw [String.toList_ofList, String.toList_ofList, hfull]
        exact List.prefix_append _ _
      · intro heq
        have hlist := congrArg String.toList heq
        rw [String.toList_ofList, String.toList_ofList, hfull, List.self_eq_append_right,
          List.append_eq_nil_iff] at hlist
        exact replacement.text_ne_nil hreplacement hlist.1
      · rw [String.toList_ofList, String.toList_ofList, hfull]

/-- An argument whose value has two faults, the first of them inside a list inside an object: the
text ends inside both. -/
theorem Node.appendTo_printer_of_repairedBy_nested :
    let node (first second : String) : Node :=
      .argument ⟨⟨"where"⟩, .object [(⟨"key"⟩,
        .list [.int 1, .enum ⟨⟨first⟩⟩, .variable ⟨⟨second⟩⟩])]⟩
    (node "true" "").RepairedBy (node "yes" "v") ∧
      (node "true" "").printer.appendTo "query " =
        (.error (.reservedEnumValue "true"), "query where: \x7bkey: [1 ") ∧
      ∃ part full, "query where: \x7bkey: [1 " = "query " ++ part ∧
        (node "yes" "v").print = .ok full ∧ part.toList <+: full.toList ∧ part ≠ full := by
  intro node
  have hname (text : String) (h : Leaf.IsAcceptable (.name ⟨text⟩)) :
      Name.Alike Leaf.RepairedBy ⟨text⟩ ⟨text⟩ := ⟨h, fun _ => rfl⟩
  have hfirst : Leaf.RepairedBy (.enumValue ⟨⟨"true"⟩⟩) (.enumValue ⟨⟨"yes"⟩⟩) :=
    ⟨by decide, fun h => absurd h (by decide)⟩
  have hsecond : Name.Alike Leaf.RepairedBy ⟨""⟩ ⟨"v"⟩ :=
    ⟨by decide, fun h => absurd h (by decide)⟩
  have hitems : Value.AlikeItems Leaf.RepairedBy Eq
      [.int 1, .enum ⟨⟨"true"⟩⟩, .variable ⟨⟨""⟩⟩] [.int 1, .enum ⟨⟨"yes"⟩⟩, .variable ⟨⟨"v"⟩⟩] :=
    .cons (.int 1) (.cons (.enum hfirst) (.cons (.variable hsecond) .nil))
  have hvalue := Value.Alike.object (.cons (hname "key" (by decide)) (.list hitems) .nil)
  have hrepaired : (node "true" "").RepairedBy (node "yes" "v") :=
    .leaves (by simp [IsEmptyDocument, node]) (.argument ⟨hname "where" (by decide), hvalue⟩)
  have hfault : (node "true" "").printer.appendTo "query " =
      (.error (.reservedEnumValue "true"), "query where: \x7bkey: [1 ") := rfl
  obtain ⟨part, full, hafter, hprint, hprefix, hne, -⟩ :=
    Node.appendTo_printer_of_repairedBy hrepaired hfault
  exact ⟨hrepaired, hfault, part, full, hafter, hprint, hprefix, hne⟩

end GraphQLText

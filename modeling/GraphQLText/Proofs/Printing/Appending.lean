import GraphQLText.Proofs.Printing.Layout

/-!
# Printing at the end of a text

A printer never looks at the text it extends.  Every node adds one part to whatever text is there,
and ends in one way; on its own it has this part as its text if it ends well.  A sequence of nodes
therefore leaves the parts of its nodes one after the other, those of nodes with a fault included.
-/

namespace GraphQLText

namespace Printer

/-- Whatever text is there, the printer adds the same part to it and ends in the same way. -/
def Appends (p : Printer) (result : Except Fault Unit) (part : String) : Prop :=
  ∀ text, p.appendTo text = (result, text ++ part)

variable {p : Printer} {result : Except Fault Unit} {part : String}

/-- What a printer appends to no text is its text if it ends well. -/
theorem Appends.print_eq (h : p.Appends result part) : p.print = result.map fun _ => part := by
  unfold print
  rw [h "", String.empty_append]
  cases result with
  | ok => rfl
  | error fault => rfl

/-- A printer that writes marks appends their characters. -/
theorem Writes.appends {marks : List Mark} (h : p.Writes marks) :
    p.Appends (Mark.outcome marks) (String.ofList (Mark.written marks)) :=
  h

end Printer

namespace Node

open Printer

/-- What a node adds to a text, up to its first fault. -/
def part (node : Node) : String :=
  (node.printer.appendTo "").2

/-- A document without definitions adds nothing and is refused; all other nodes are written by their
marks. -/
theorem exists_appends (node : Node) :
    ∃ result part, node.printer.Appends result part := by
  by_cases hempty : node.IsEmptyDocument
  · refine ⟨.error .emptyDocument, "", ?_⟩
    intro text
    rw [hempty, String.append_empty]
    exact Document.appendTo_printer_empty text
  · exact ⟨_, _, (node.printer_writes hempty).appends⟩

/-- The part of a node consists of the characters of its marks before the first fault.  A document
without definitions has no marks. -/
theorem toList_part (node : Node) : node.part.toList = Mark.written node.marks := by
  by_cases hempty : node.IsEmptyDocument
  · rw [hempty]
    rfl
  · rw [part, node.printer_writes hempty, String.empty_append, String.toList_ofList]

/-- A node appends its part, and ends as it does when it is printed on its own. -/
theorem appends (node : Node) :
    node.printer.Appends (node.print.map fun _ => ()) node.part := by
  obtain ⟨result, part, h⟩ := node.exists_appends
  have hpart : node.part = part := by
    rw [Node.part, h "", String.empty_append]
  have hresult : (node.print.map fun _ => ()) = result := by
    rw [print, h.print_eq]
    cases result with
    | ok => rfl
    | error fault => rfl
  rw [hpart, hresult]
  exact h

/-- After each node of a sequence, the text is the one at the start with the parts of the nodes
until then. -/
theorem getElem?_printAll (start : String) (nodes : List Node) (k : Nat) :
    (printAll start nodes)[k]? = nodes[k]?.map fun node =>
      (node.print.map fun _ => (), start ++ String.join ((nodes.take (k + 1)).map part)) := by
  induction nodes generalizing start k with
  | nil => rfl
  | cons node rest ih =>
      have hstep := node.appends start
      rw [printAll, hstep]
      cases k with
      | zero => simp
      | succ k =>
          rw [List.getElem?_cons_succ, List.getElem?_cons_succ, ih, List.take_succ_cons,
            List.map_cons, String.join_cons, String.append_assoc]

/-- A node adds the same part to every text and always ends in the same way, and this part is its
text if it ends well.  Printing nodes one after the other leaves all their parts behind the text at
the start, each node ending as it does on its own. -/
theorem appends_and_printAll :
    (∀ node : Node, ∃ result,
      (∀ text, node.printer.appendTo text = (result, text ++ node.part)) ∧
        node.print = result.map fun _ => node.part) ∧
    ∀ (start : String) (nodes : List Node) (k : Nat),
      (printAll start nodes)[k]? = nodes[k]?.map fun node =>
        (node.print.map fun _ => (), start ++ String.join ((nodes.take (k + 1)).map part)) := by
  constructor
  · intro node
    have happends := node.appends
    exact ⟨_, happends, happends.print_eq⟩
  · exact getElem?_printAll

end Node

end GraphQLText

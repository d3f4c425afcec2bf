import GraphQLText.Proofs.Printing.Appending

/-!
# Joins of parts

What a join of printers appends is told by what its items append.  The items come with their
separators until the first of them that ends with a fault, and a closing bracket is written only
after all of them.  Both cases are put into one relation, so that each join has one law.
-/

namespace GraphQLText.Printer

variable {p q : Printer} {items before : List Printer} {result : Except Fault Unit} {fault : Fault}
  {part rest : String} {texts : List String}

/-- Run in turn, the printers append these parts, the last of which is that of the first printer
that ends with a fault, if there is one.  The printers after that one are never run. -/
inductive InTurn : List Printer → Except Fault Unit → List String → Prop where
  | nil : InTurn [] (.ok ()) []
  | cons {p : Printer} {part : String} {items : List Printer} {result : Except Fault Unit}
      {texts : List String} (hitem : p.Appends (.ok ()) part)
      (hrest : InTurn items result texts) : InTurn (p :: items) result (part :: texts)
  | fault {p : Printer} {part : String} {fault : Fault} (hitem : p.Appends (.error fault) part)
      (items : List Printer) : InTurn (p :: items) (.error fault) [part]

namespace InTurn

theorem of_forall₂ (h : List.Forall₂ (fun item text => item.Appends (.ok ()) text) items texts) :
    InTurn items (.ok ()) texts := by
  induction h with
  | nil => exact nil
  | cons hitem _ ih => exact cons hitem ih

theorem of_fault (h : List.Forall₂ (fun item text => item.Appends (.ok ()) text) before texts)
    (hp : p.Appends (.error fault) part) (after : List Printer) :
    InTurn (before ++ p :: after) (.error fault) (texts ++ [part]) := by
  induction h with
  | nil => exact .fault hp after
  | cons hitem _ ih => exact cons hitem ih

end InTurn

namespace Appends

/-- A printer appends one part only. -/
theorem unique {other : Except Fault Unit} (h : p.Appends result part)
    (hother : p.Appends other rest) : result = other ∧ part = rest := by
  have hsame := h ""
  rw [hother "", String.empty_append, String.empty_append, Prod.mk.injEq] at hsame
  exact ⟨hsame.1.symm, hsame.2.symm⟩

theorem nil : Appends (pure ()) (.ok ()) "" := by
  intro text
  rw [appendTo_pure, String.append_empty]

theorem put (s : String) : (put s).Appends (.ok ()) s :=
  appendTo_put s

/-- A printer goes on after one that has ended well. -/
theorem seq (hp : p.Appends (.ok ()) part) (hq : q.Appends result rest) :
    Appends (do p; q) result (part ++ rest) := by
  intro text
  rw [appendTo_bind, hp text]
  dsimp only
  rw [hq, String.append_assoc]

theorem seq_of_error (hp : p.Appends (.error fault) part) (q : Printer) :
    Appends (do p; q) (.error fault) part := by
  intro text
  rw [appendTo_bind, hp text]

/-- What is written between an opening and a closing text is closed only if it ends well. -/
theorem enclosed (h : p.Appends result part) (opening closing : String) :
    Appends (do Printer.put opening; p; Printer.put closing) result
      (opening ++ part ++ if result.isOk then closing else "") := by
  rw [String.append_assoc]
  apply (put opening).seq
  cases result with
  | ok => exact h.seq (put closing)
  | error fault =>
      have hclosing :
          (if (Except.error fault : Except Fault Unit).isOk then closing else "") = "" := rfl
      rw [hclosing, String.append_empty]
      exact h.seq_of_error _

theorem ledBySpaces (h : InTurn items result texts) :
    (ledBySpaces items).Appends result (String.join (texts.map (" " ++ ·))) := by
  induction h with
  | nil => exact nil
  | cons hitem _ ih =>
      rw [List.map_cons, String.join_cons, String.append_assoc]
      exact (put " ").seq (hitem.seq ih)
  | fault hitem items =>
      rw [List.map_singleton, String.join_cons, String.join_nil, String.append_empty]
      exact (put " ").seq (hitem.seq_of_error _)

theorem intercalate_space (text : String) (texts : List String) :
    " ".intercalate (text :: texts) = text ++ String.join (texts.map (" " ++ ·)) := by
  induction texts generalizing text with
  | nil => simp
  | cons next texts ih =>
      rw [String.intercalate_cons_cons, ih, List.map_cons, String.join_cons, String.append_assoc,
        String.append_assoc]

/-- The items are written with single spaces between them. -/
theorem spaced (h : InTurn items result texts) :
    (spaced items).Appends result (" ".intercalate texts) := by
  -- The first item stands apart, as no space comes before it.
  cases h with
  | nil => exact nil
  | cons hitem hrest =>
      rw [intercalate_space]
      exact hitem.seq (ledBySpaces hrest)
  | fault hitem items =>
      rw [String.intercalate_singleton]
      exact hitem.seq_of_error _

/-- The closing bracket is written only if all items are. -/
theorem bracketed (h : (Printer.spaced items).Appends result part) (opening closing : String) :
    (bracketed opening closing items).Appends result
      (opening ++ part ++ if result.isOk then closing else "") :=
  h.enclosed opening closing

theorem block (h : InTurn items result texts) :
    (block items).Appends result
      ("\x7b" ++ String.join (texts.map (" " ++ ·)) ++ if result.isOk then " \x7d" else "") :=
  (ledBySpaces h).enclosed "\x7b" " \x7d"

/-- What is put after a check is written only if the check goes well. -/
theorem require_put (result : Except Fault Unit) (s : String) :
    Appends (do require result; Printer.put s) result (if result.isOk then s else "") := by
  have hrequire : (require result).Appends result "" := by
    intro text
    rw [appendTo_require, String.append_empty]
  cases result with
  | ok =>
      have hseq := hrequire.seq (put s)
      rwa [String.empty_append] at hseq
  | error fault => exact hrequire.seq_of_error _

end Appends

end GraphQLText.Printer

namespace GraphQLText

theorem SelectionSet.printers_eq_map (selections : List (Selection Value)) :
    SelectionSet.printers selections = selections.map Selection.printer := by
  induction selections with
  | nil => rfl
  | cons selection rest ih => rw [SelectionSet.printers, ih, List.map_cons]

/-- A selection set is the block of its selections. -/
theorem SelectionSet.printer_eq_block (selections : List (Selection Value)) :
    (SelectionSet.mk selections).printer = Printer.block (selections.map Selection.printer) := by
  rw [SelectionSet.printer, SelectionSet.printers_eq_map]

namespace Printer

theorem forall₂_appends_map {α : Type} {write : α → Printer} {text : α → String} {items : List α}
    (h : ∀ item ∈ items, (write item).Appends (.ok ()) (text item)) :
    List.Forall₂ (fun item text => item.Appends (.ok ()) text) (items.map write)
      (items.map text) := by
  rw [List.forall₂_map_left_iff, List.forall₂_map_right_iff, List.forall₂_same]
  exact h

/-- If all items end well, each join appends their texts with its separators and brackets.  If one
of them ends with a fault and all before it end well, each join ends with that fault.  It has then
appended its opening bracket and the texts until then with their separators, the last of them being
the part of the item with the fault.  What comes after this item has no effect, whatever it is, and
nothing is closed.  The selections of a set are joined by a block. -/
theorem joins_append {α : Type} (write : α → Printer) (text : α → String)
    (opening closing : String) :
    (∀ items : List α, (∀ item ∈ items, (write item).Appends (.ok ()) (text item)) →
      let printers := items.map write
      let texts := items.map text
      (spaced printers).Appends (.ok ()) (" ".intercalate texts) ∧
      (bracketed opening closing printers).Appends (.ok ())
        (opening ++ " ".intercalate texts ++ closing) ∧
      (ledBySpaces printers).Appends (.ok ()) (String.join (texts.map (" " ++ ·))) ∧
      (block printers).Appends (.ok ())
        ("\x7b" ++ String.join (texts.map (" " ++ ·)) ++ " \x7d")) ∧
    (∀ (before : List α) (item : α) (after : List α) (fault : Fault),
      (∀ earlier ∈ before, (write earlier).Appends (.ok ()) (text earlier)) →
      (write item).Appends (.error fault) (text item) →
      let printers := (before ++ item :: after).map write
      let texts := before.map text ++ [text item]
      (spaced printers).Appends (.error fault) (" ".intercalate texts) ∧
      (bracketed opening closing printers).Appends (.error fault)
        (opening ++ " ".intercalate texts) ∧
      (ledBySpaces printers).Appends (.error fault) (String.join (texts.map (" " ++ ·))) ∧
      (block printers).Appends (.error fault)
        ("\x7b" ++ String.join (texts.map (" " ++ ·)))) ∧
    ∀ selections : List (Selection Value),
      (SelectionSet.mk selections).printer = block (selections.map Selection.printer) := by
  refine ⟨?_, ?_, SelectionSet.printer_eq_block⟩
  · intro items hitems
    have hturn := InTurn.of_forall₂ (forall₂_appends_map hitems)
    exact ⟨.spaced hturn, (Appends.spaced hturn).bracketed opening closing, .ledBySpaces hturn,
      .block hturn⟩
  · intro before item after fault hbefore hitem printers texts
    have hturn : InTurn printers (.error fault) texts := by
      have happend : printers = before.map write ++ write item :: after.map write := List.map_append
      rw [happend]
      exact .of_fault (forall₂_appends_map hbefore) hitem _
    have hbracketed := (Appends.spaced hturn).bracketed opening closing
    have hblock := Appends.block hturn
    -- No fault is closed, so that nothing follows the texts.
    simp only [Except.isOk, Except.toBool, Bool.false_eq_true, if_false, String.append_empty]
      at hbracketed hblock
    exact ⟨.spaced hturn, hbracketed, .ledBySpaces hturn, hblock⟩

/-- Two lists of names.  In the second, one of the texts is no name, and the name after it is not
written. -/
theorem joins_append_names :
    let text (name : Name) := if name.check.isOk then name.text else ""
    let valid : List Name := [⟨"first"⟩, ⟨"second"⟩]
    let ok : Name := ⟨"ok"⟩
    let spoilt : Name := ⟨"not ok"⟩
    let fault := Fault.invalidName "not ok"
    ((∀ name ∈ valid, name.printer.Appends (.ok ()) (text name)) ∧
      (bracketed "(" ")" (valid.map Name.printer)).Appends (.ok ()) "(first second)") ∧
    ((∀ name ∈ [ok], name.printer.Appends (.ok ()) (text name)) ∧
      spoilt.printer.Appends (.error fault) (text spoilt) ∧
      (bracketed "(" ")" [ok.printer, spoilt.printer, ok.printer]).Appends (.error fault) "(ok " ∧
      (block [ok.printer, spoilt.printer, ok.printer]).Appends (.error fault) "\x7b ok ") := by
  intro text valid ok spoilt fault
  have happends (name : Name) : name.printer.Appends name.check (text name) :=
    .require_put name.check name.text
  have hvalid : ∀ name ∈ valid ++ [ok], name.check = .ok () := by decide +kernel
  have hspoilt : spoilt.check = .error fault := by decide +kernel
  have hall : ∀ name ∈ valid, name.printer.Appends (.ok ()) (text name) := by
    intro name hname
    rw [← hvalid name (List.mem_append_left _ hname)]
    exact happends name
  have hok : ∀ name ∈ [ok], name.printer.Appends (.ok ()) (text name) := by
    intro name hname
    rw [← hvalid name (List.mem_append_right _ hname)]
    exact happends name
  have hfault : spoilt.printer.Appends (.error fault) (text spoilt) := by
    rw [← hspoilt]
    exact happends spoilt
  obtain ⟨-, hsuccess, -⟩ := (joins_append Name.printer text "(" ")").1 valid hall
  obtain ⟨-, hbracketed, -, hblock⟩ :=
    (joins_append Name.printer text "(" ")").2.1 [ok] spoilt [ok] fault hok hfault
  have hwritten : "(" ++ " ".intercalate (valid.map text) ++ ")" = "(first second)" := by
    decide +kernel
  have hopened : "(" ++ " ".intercalate [text ok, text spoilt] = "(ok " := by decide +kernel
  have hbraced : "\x7b" ++ String.join [" " ++ text ok, " " ++ text spoilt] = "\x7b ok " := by
    decide +kernel
  exact ⟨⟨hall, hwritten ▸ hsuccess⟩, hok, hfault, hopened ▸ hbracketed, hbraced ▸ hblock⟩

end Printer

end GraphQLText

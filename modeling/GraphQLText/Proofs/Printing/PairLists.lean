import GraphQLText.Proofs.Printing.Joins
import GraphQLText.Proofs.Tree.Entries

/-!
# Lists of pairs

Pairs of names and values can be written as a map, as an object or as arguments.  All of these write
a pair as its value under its name, so they differ in their brackets alone, and in that no arguments
are not written at all.  A map differs from the others if a name is repeated: it then has only the
last value of the name, in the place where the name came first.
-/

namespace GraphQLText

open Printer

/-- The fields of an object are written as arguments are. -/
theorem Value.fieldPrinters_eq (pairs : List (Name × Value)) :
    Value.fieldPrinters pairs = (Arguments.ofPairs pairs).items.map Argument.printer := by
  induction pairs with
  | nil => rfl
  | cons pair rest ih =>
      rw [Value.fieldPrinters, ih]
      rfl

theorem Arguments.printer_eq_bracketed {pairs : List (Name × Value)} (h : pairs ≠ []) :
    (Arguments.ofPairs pairs).printer = bracketed "(" ")" (Value.fieldPrinters pairs) := by
  rw [Value.fieldPrinters_eq]
  cases pairs with
  | nil => exact absurd rfl h
  | cons pair rest => rfl

theorem Arguments.pairs_ofPairs (pairs : List (Name × Value)) :
    (Arguments.ofPairs pairs).items.map (fun argument => (argument.name, argument.value)) =
      pairs := by
  rw [ofPairs, List.map_map]
  exact List.map_id _

/-- A node with a text appends it and ends well. -/
theorem Node.appends_of_print_eq_ok {node : Node} {text : String} (h : node.print = .ok text) :
    node.printer.Appends (.ok ()) text := by
  have happends := node.appends
  have hprint : node.print = _ := happends.print_eq
  rw [h] at happends hprint
  rw [Except.ok.inj hprint]
  exact happends

/-- Pairs that all have a text are written with single spaces between them. -/
theorem Value.appends_fieldPrinters {pairs : List (Name × Value)} {texts : List String}
    (h : List.Forall₂
      (fun pair text => (Node.argument ⟨pair.1, pair.2⟩).print = .ok text) pairs texts) :
    (spaced (Value.fieldPrinters pairs)).Appends (.ok ()) (" ".intercalate texts) := by
  rw [Value.fieldPrinters_eq, Arguments.ofPairs, List.map_map]
  apply Appends.spaced
  apply InTurn.of_forall₂
  rw [List.forall₂_map_left_iff]
  exact h.imp fun _ _ => Node.appends_of_print_eq_ok

theorem Value.exists_appends_fieldPrinters (pairs : List (Name × Value)) :
    ∃ result part, (spaced (Value.fieldPrinters pairs)).Appends result part :=
  ⟨_, _, (Writes.spaced (Value.fieldPrinters_write pairs)).appends⟩

/-- A map holds each name once, in the place where it came first and with the value that came last,
and is written as the object with these fields; if no name is repeated, that is the object with all
pairs.  An object is written as it is on its own.  Arguments hold all pairs as an object does, and
are written with the same characters between their brackets, up to the same fault; without pairs
nothing is written for them.  Pairs that have a text are all written, in order. -/
theorem appendTo_ofPairs (pairs : List (Name × Value)) :
    (∃ kept, Value.ofPairs pairs = .map kept ∧
      Entries.keys kept = (Entries.keys pairs).eraseDups ∧
      (∀ name value, (name, value) ∈ kept ↔ Entries.IsLast pairs name value) ∧
      ∀ text, (Value.ofPairs pairs).printer.appendTo text =
        (ObjectValue.mk kept).printer.appendTo text) ∧
    (Entries.Distinct pairs → ∀ text,
      (Value.ofPairs pairs).printer.appendTo text =
        (ObjectValue.mk pairs).printer.appendTo text) ∧
    (∀ text, (Value.object pairs).printer.appendTo text =
      (ObjectValue.mk pairs).printer.appendTo text) ∧
    (Arguments.ofPairs pairs).items.map (fun argument => (argument.name, argument.value)) = pairs ∧
    (pairs = [] → ∀ text,
      (ObjectValue.mk pairs).printer.appendTo text = (.ok (), text ++ "\x7b\x7d") ∧
      (Arguments.ofPairs pairs).printer.appendTo text = (.ok (), text)) ∧
    ∃ result inner,
      (∀ text, (ObjectValue.mk pairs).printer.appendTo text =
        (result, text ++ ("\x7b" ++ inner ++ if result.isOk then "\x7d" else ""))) ∧
      (pairs ≠ [] → ∀ text, (Arguments.ofPairs pairs).printer.appendTo text =
        (result, text ++ ("(" ++ inner ++ if result.isOk then ")" else ""))) ∧
      ∀ texts, List.Forall₂
          (fun pair text => (Node.argument ⟨pair.1, pair.2⟩).print = .ok text) pairs texts →
        result = .ok () ∧ inner = " ".intercalate texts := by
  refine ⟨?_, ?_, fun _ => rfl, Arguments.pairs_ofPairs pairs, ?_, ?_⟩
  · exact ⟨Entries.collect pairs, rfl, Entries.keys_collect pairs,
      fun _ _ => Entries.mem_collect_iff, fun _ => rfl⟩
  · intro hdistinct text
    rw [Value.ofPairs, Entries.collect_of_distinct hdistinct]
    rfl
  · rintro rfl text
    have hempty : (spaced []).Appends (.ok ()) "" := Appends.nil
    exact ⟨hempty.bracketed "\x7b" "\x7d" text, rfl⟩
  · obtain ⟨result, inner, h⟩ := Value.exists_appends_fieldPrinters pairs
    refine ⟨result, inner, h.bracketed _ _, ?_, ?_⟩
    · intro hne
      rw [Arguments.printer_eq_bracketed hne]
      exact h.bracketed _ _
    · intro texts htexts
      exact h.unique (Value.appends_fieldPrinters htexts)

end GraphQLText

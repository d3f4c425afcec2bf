import GraphQLText.Proofs.Lexical.NumeralSyntax
import GraphQLText.Proofs.Lexical.Outside
import GraphQLText.Proofs.Lexical.PlainCharacters
import GraphQLText.Proofs.Printing.Appending
import GraphQLText.Proofs.Printing.Shape
import GraphQLText.Proofs.Printing.Spacing
import Mathlib.Data.List.TakeWhile

/-!
# The structure of a text

The structure of a text is what is left of it without the contents of its strings.  Only strings
write quotes, and each string is scanned from its opening to its closing quote.  The structure of
what a node has written is therefore that of its marks, and two nodes that differ only in the
contents of strings cannot be told apart by it.
-/

namespace GraphQLText

open StringLiteral Token
open StringLiteral.Place hiding strip

namespace Mark

/-- The characters of a mark, without the contents of a string. -/
def skeleton : Mark → List Char
  | string _ => ['"', '"']
  | mark => mark.text

/-- The marks before the first one with a fault. -/
def beforeFault (marks : List Mark) : List Mark :=
  marks.takeWhile fun mark => mark.fault?.isNone

theorem beforeFault_cons_of_none {mark : Mark} (h : mark.fault? = none) (rest : List Mark) :
    beforeFault (mark :: rest) = mark :: beforeFault rest :=
  List.takeWhile_cons_of_pos (by rw [h]; rfl)

theorem beforeFault_cons_of_some {mark : Mark} {fault : Fault} (h : mark.fault? = some fault)
    (rest : List Mark) : beforeFault (mark :: rest) = [] :=
  List.takeWhile_cons_of_neg (by rw [h]; exact Bool.false_ne_true)

/-- Without a fault nothing is cut off. -/
theorem beforeFault_eq_self {marks : List Mark} (h : firstFault? marks = none) :
    beforeFault marks = marks := by
  rw [firstFault?, List.findSome?_eq_none_iff] at h
  apply List.takeWhile_eq_self_iff.mpr
  intro mark hmark
  rw [h mark hmark]
  rfl

/-- What is written are the characters of the marks before the first fault. -/
theorem written_eq_beforeFault (marks : List Mark) :
    written marks = (beforeFault marks).flatMap text := by
  induction marks with
  | nil => rfl
  | cons mark rest ih =>
      rw [written]
      cases hfault : mark.fault? with
      | none =>
          rw [beforeFault_cons_of_none hfault, List.flatMap_cons, ← ih]
          rfl
      | some fault =>
          rw [beforeFault_cons_of_some hfault]
          rfl

/-- A mark before the first fault is one of the marks and has no fault. -/
theorem of_mem_beforeFault {marks : List Mark} {mark : Mark} (h : mark ∈ beforeFault marks) :
    mark ∈ marks ∧ mark.fault? = none := by
  constructor
  · exact (List.takeWhile_sublist _).mem h
  · have hnone := List.mem_takeWhile_imp (p := fun mark : Mark => mark.fault?.isNone) h
    exact Option.isNone_iff_eq_none.mp hnone

/-! ### The characters of one mark -/

/-- The characters of an acceptable leaf are plain. -/
theorem isPlain_of_mem_leaf {l : Leaf} (h : l.IsAcceptable) : ∀ c ∈ l.text, IsPlain c := by
  cases l with
  | number x => exact (Numeral.isFloatValue_ofBinary x).isPlain
  | _ => exact (Leaf.isName_text h (by simp)).isPlain

/-- A mark other than a string is a space or a punctuator, or it has plain characters. -/
theorem text_cases {mark : Mark} (hproper : mark.IsProper) (hfault : mark.fault? = none)
    (hstring : ∀ s, mark ≠ string s) :
    mark = space ∨ (∃ c, isPunctuator c = true ∧ mark = punctuator c) ∨
      ∀ c ∈ mark.text, IsPlain c := by
  cases mark with
  | space => exact Or.inl rfl
  | punctuator c => exact Or.inr (Or.inl ⟨c, hproper, rfl⟩)
  | spread =>
      right
      right
      exact List.forall_iff_forall_mem.mp (by decide)
  | word w => exact Or.inr (Or.inr (IsName.isPlain hproper))
  | int n => exact Or.inr (Or.inr (Numeral.isIntValue_ofInt _).isPlain)
  | string s => exact absurd rfl (hstring s)
  | leaf l => exact Or.inr (Or.inr (isPlain_of_mem_leaf hfault))

/-- Only strings write quotes. -/
theorem quote_notMem_text {mark : Mark} (hproper : mark.IsProper) (hfault : mark.fault? = none)
    (hstring : ∀ s, mark ≠ string s) : '"' ∉ mark.text := by
  intro hquote
  rcases text_cases hproper hfault hstring with rfl | ⟨c, hc, rfl⟩ | hplain
  · exact absurd hquote (by decide)
  · rw [← List.mem_singleton.mp hquote] at hc
    exact absurd hc (by decide)
  · exact absurd (hplain _ hquote) (by decide)

theorem skeleton_of_ne_string {mark : Mark} (h : ∀ s, mark ≠ string s) :
    mark.skeleton = mark.text := by
  cases mark with
  | string s => exact absurd rfl (h s)
  | _ => rfl

/-- The scan of a mark ends outside of literals, and what is left of the mark is its skeleton. -/
theorem scan_text {mark : Mark} (hproper : mark.IsProper) (hfault : mark.fault? = none) :
    outside.after mark.text = outside ∧ outside.strip mark.text = mark.skeleton := by
  by_cases hstring : ∀ s, mark ≠ string s
  · rw [skeleton_of_ne_string hstring]
    exact outside_of_quote_notMem (quote_notMem_text hproper hfault hstring)
  · push Not at hstring
    obtain ⟨s, rfl⟩ := hstring
    exact outside_ofString s

/-! ### Sequences of marks -/

/-- Marks without a fault are scanned one after the other. -/
theorem scan_flatMap_text {marks : List Mark}
    (h : ∀ mark ∈ marks, mark.IsProper ∧ mark.fault? = none) :
    outside.after (marks.flatMap text) = outside ∧
      outside.strip (marks.flatMap text) = marks.flatMap skeleton := by
  induction marks with
  | nil => exact ⟨rfl, rfl⟩
  | cons mark rest ih =>
      obtain ⟨hmark, hrest⟩ := List.forall_mem_cons.mp h
      obtain ⟨hafter, hstrip⟩ := scan_text hmark.1 hmark.2
      obtain ⟨ihafter, ihstrip⟩ := ih hrest
      rw [List.flatMap_cons, List.flatMap_cons]
      constructor
      · rw [after_append, hafter, ihafter]
      · rw [strip_append, hafter, hstrip, ihstrip]

/-- The structure of what is written are the skeletons of the marks before the first fault, and the
scan ends outside of literals. -/
theorem scan_written {marks : List Mark} (hproper : ∀ mark ∈ marks, mark.IsProper) :
    outside.after (written marks) = outside ∧
      outside.strip (written marks) = (beforeFault marks).flatMap skeleton := by
  rw [written_eq_beforeFault]
  apply scan_flatMap_text
  intro mark hmark
  obtain ⟨hmem, hfault⟩ := of_mem_beforeFault hmark
  exact ⟨hproper mark hmem, hfault⟩

end Mark

open Mark

/-! ### Nodes that differ in strings -/

/-- Nodes of one kind and shape that differ at most in the contents of their strings. -/
def Node.DifferInStrings (a b : Node) : Prop :=
  a.Alike Eq (fun _ _ => True) b

/-- Marks that differ at most in the contents of a string have the same fault, if any, and the same
skeleton. -/
theorem Mark.Alike.skeleton_eq {m n : Mark} (h : m.Alike Eq (fun _ _ => True) n) :
    m.fault? = n.fault? ∧ m.skeleton = n.skeleton := by
  cases h with
  | leaf hleaf =>
      subst hleaf
      exact ⟨rfl, rfl⟩
  | _ => exact ⟨rfl, rfl⟩

theorem Mark.AlikeAll.skeletons_eq {ms ns : List Mark}
    (h : AlikeAll Eq (fun _ _ => True) ms ns) :
    firstFault? ms = firstFault? ns ∧
      (beforeFault ms).flatMap skeleton = (beforeFault ns).flatMap skeleton := by
  induction h with
  | nil => exact ⟨rfl, rfl⟩
  | @cons m n ms ns hmark _ ih =>
      obtain ⟨hfault, hskeleton⟩ := hmark.skeleton_eq
      constructor
      · rw [firstFault?_cons, firstFault?_cons, hfault, ih.1]
      · cases hn : n.fault? with
        | none =>
            rw [beforeFault_cons_of_none hn, beforeFault_cons_of_none (hfault.trans hn),
              List.flatMap_cons, List.flatMap_cons, hskeleton, ih.2]
        | some fault =>
            rw [beforeFault_cons_of_some hn, beforeFault_cons_of_some (hfault.trans hn)]

/-- Two nodes that differ at most in the contents of strings end in the same way when they are
printed, well or with the same fault.  What they write has the same structure, and the last literal
in it is closed. -/
theorem Node.strip_part_of_differInStrings {a b : Node} (h : a.DifferInStrings b) :
    (a.printer.appendTo "").1 = (b.printer.appendTo "").1 ∧
      strip (a.printer.appendTo "").2.toList = strip (b.printer.appendTo "").2.toList ∧
      outside.after (a.printer.appendTo "").2.toList = outside ∧
      outside.after (b.printer.appendTo "").2.toList = outside := by
  obtain ⟨hfault, hskeletons⟩ := h.marks.skeletons_eq
  obtain ⟨hafter₁, hstrip₁⟩ := scan_written a.trimmed.isProper
  obtain ⟨hafter₂, hstrip₂⟩ := scan_written b.trimmed.isProper
  rw [← Node.part, ← Node.part, a.toList_part, b.toList_part]
  refine ⟨?_, ?_, hafter₁, hafter₂⟩
  · by_cases hempty : a.IsEmptyDocument
    · rw [hempty, Node.Alike.isEmptyDocument_iff h |>.mp hempty]
    · have hempty' := mt (Node.Alike.isEmptyDocument_iff h).mpr hempty
      rw [a.printer_writes hempty, b.printer_writes hempty', outcome, outcome, hfault]
  · rw [strip, strip, hstrip₁, hstrip₂, hskeletons]

/-- An argument with a fault behind a string: whether the string is empty or ends in a backslash
after a quote and a brace, the printer stops at the same fault inside of the same brackets. -/
theorem Node.strip_part_of_differInStrings_nested :
    let node (contents : String) : Node :=
      .argument ⟨⟨"where"⟩, .object [(⟨"key"⟩, .list [.string contents, .enum ⟨⟨"true"⟩⟩])]⟩
    (node "").DifferInStrings (node "\"]\x7d\n\\") ∧
      (node "").printer.appendTo "" =
        (.error (.reservedEnumValue "true"), "where: \x7bkey: [\"\" ") ∧
      (node "\"]\x7d\n\\").printer.appendTo "" =
        (.error (.reservedEnumValue "true"), "where: \x7bkey: [\"\\\"]\x7d\\n\\\\\" ") ∧
      strip "where: \x7bkey: [\"\" ".toList =
        strip "where: \x7bkey: [\"\\\"]\x7d\\n\\\\\" ".toList := by
  intro node
  have hitems : Value.AlikeItems Eq (fun _ _ => True)
      [.string "", .enum ⟨⟨"true"⟩⟩] [.string "\"]\x7d\n\\", .enum ⟨⟨"true"⟩⟩] :=
    .cons (.string trivial) (.cons (.enum rfl) .nil)
  have hdiffer : (node "").DifferInStrings (node "\"]\x7d\n\\") :=
    .argument ⟨rfl, .object (.cons rfl (.list hitems) .nil)⟩
  have hempty : (node "").printer.appendTo "" =
      (.error (.reservedEnumValue "true"), "where: \x7bkey: [\"\" ") := rfl
  have hfull : (node "\"]\x7d\n\\").printer.appendTo "" =
      (.error (.reservedEnumValue "true"), "where: \x7bkey: [\"\\\"]\x7d\\n\\\\\" ") := rfl
  have hstrip := (Node.strip_part_of_differInStrings hdiffer).2.1
  rw [hempty, hfull] at hstrip
  exact ⟨hdiffer, hempty, hfull, hstrip⟩

end GraphQLText

import GraphQLText.Printing.Value
import GraphQLText.Proofs.Lexical.NumeralSyntax
import GraphQLText.Proofs.Tree.Leaf
import Mathlib.Data.List.Forall2

/-!
# Marks

The text of a tree is a sequence of marks: single spaces, punctuators, words, numbers, strings and
checked leaves.  A printer writes a sequence of marks if it appends their texts one after the other
and stops in front of the first leaf with a fault.  What a printer does to a text is then a matter
of its marks alone, and the joins of printers are joins of sequences of marks.
-/

namespace GraphQLText

/-- A part of a text that is written as a whole or not at all. -/
inductive Mark where
  | space
  | punctuator (c : Char)
  | spread
  | word (text : String)
  | int (n : Int64)
  | string (contents : String)
  | leaf (leaf : Leaf)

/-- The characters of a leaf without a fault. -/
def Leaf.text : Leaf → List Char
  | name n => n.text.toList
  | fragmentName n => n.name.text.toList
  | enumValue v => v.name.text.toList
  | number x => Numeral.ofBinary x

/-- An acceptable leaf is spelled as a name, unless it is a number. -/
theorem Leaf.isName_text {leaf : Leaf} (h : leaf.IsAcceptable)
    (hnumber : ∀ {f : BinaryFormat} (x : Binary f), leaf ≠ .number x) :
    Token.IsName leaf.text := by
  by_contra hname
  unfold IsAcceptable at h
  cases leaf with
  | name n =>
      rw [text] at hname
      simp [fault?, hname] at h
  | fragmentName n =>
      rw [text] at hname
      simp [fault?, hname] at h
  | enumValue v =>
      rw [text] at hname
      simp [fault?, hname] at h
  | number x => exact hnumber x rfl

/-- An acceptable leaf has at least one character. -/
theorem Leaf.text_ne_nil {leaf : Leaf} (h : leaf.IsAcceptable) : leaf.text ≠ [] := by
  cases leaf with
  | number x =>
      obtain ⟨c, rest, hcons, -⟩ := (Numeral.isFloatValue_ofBinary x).exists_cons
      rw [text, hcons]
      exact List.cons_ne_nil c rest
  | _ =>
      intro hempty
      have hname := isName_text h (by simp)
      rw [hempty] at hname
      exact hname

namespace Mark

/-- The characters of a mark. -/
def text : Mark → List Char
  | space => [' ']
  | punctuator c => [c]
  | spread => ['.', '.', '.']
  | word w => w.toList
  | int n => Numeral.ofInt n.toInt
  | string s => StringLiteral.ofString s
  | leaf l => l.text

def leaf? : Mark → Option Leaf
  | leaf l => some l
  | _ => none

/-- Only a leaf has a fault. -/
def fault? (mark : Mark) : Option Fault :=
  mark.leaf?.bind Leaf.fault?

/-- The first fault in a sequence of marks. -/
def firstFault? (marks : List Mark) : Option Fault :=
  marks.findSome? fault?

/-- How writing a sequence of marks ends: at the first fault, or well. -/
def outcome (marks : List Mark) : Except Fault Unit :=
  match firstFault? marks with
  | none => .ok ()
  | some fault => .error fault

/-- The characters before the first mark with a fault. -/
def written : List Mark → List Char
  | [] => []
  | mark :: rest => if mark.fault?.isSome then [] else mark.text ++ written rest

/-! ### Joins -/

/-- The items, each after a space. -/
def ledBySpaces (items : List (List Mark)) : List Mark :=
  items.flatMap fun item => space :: item

def spaced : List (List Mark) → List Mark
  | [] => []
  | item :: rest => item ++ ledBySpaces rest

/-- The items, with single spaces, between two brackets. -/
def bracketed (opening closing : Char) (items : List (List Mark)) : List Mark :=
  punctuator opening :: (spaced items ++ [punctuator closing])

/-- The items between braces, each after a space and with a space before the closing brace. -/
def block (items : List (List Mark)) : List Mark :=
  punctuator '\x7b' :: (ledBySpaces items ++ [space, punctuator '\x7d'])

/-- Marks under a label that a colon sets off. -/
def labelled (label content : List Mark) : List Mark :=
  label ++ punctuator ':' :: space :: content

/-- What is collected from marks, but not from spaces, is collected from item after item. -/
theorem filterMap_ledBySpaces {α : Type} {f : Mark → Option α} (hspace : f space = none)
    (items : List (List Mark)) :
    (ledBySpaces items).filterMap f = items.flatMap (List.filterMap f) := by
  induction items with
  | nil => rfl
  | cons item rest ih =>
      rw [ledBySpaces] at ih ⊢
      simp [hspace, ih]

theorem filterMap_spaced {α : Type} {f : Mark → Option α} (hspace : f space = none)
    (items : List (List Mark)) :
    (spaced items).filterMap f = items.flatMap (List.filterMap f) := by
  cases items with
  | nil => rfl
  | cons item rest => simp [spaced, filterMap_ledBySpaces hspace]

/-! ### Faults and texts of sequences -/

@[simp] theorem firstFault?_nil : firstFault? [] = none :=
  rfl

@[simp] theorem firstFault?_cons (mark : Mark) (rest : List Mark) :
    firstFault? (mark :: rest) = mark.fault?.or (firstFault? rest) := by
  rw [firstFault?, List.findSome?_cons]
  cases mark.fault? <;> rfl

@[simp] theorem fault?_leaf (l : Leaf) : fault? (leaf l) = l.fault? :=
  rfl

theorem outcome_leaf (l : Leaf) :
    outcome [leaf l] = match l.fault? with
      | none => .ok ()
      | some fault => .error fault := by
  rw [outcome, firstFault?_cons, fault?_leaf, firstFault?_nil, Option.or_none]

theorem firstFault?_append (marks rest : List Mark) :
    firstFault? (marks ++ rest) = (firstFault? marks).or (firstFault? rest) :=
  List.findSome?_append

/-- The first fault of a sequence is that of its first leaf with one. -/
theorem firstFault?_eq (marks : List Mark) :
    firstFault? marks = (marks.filterMap leaf?).findSome? Leaf.fault? := by
  rw [firstFault?, ← List.head?_filterMap, ← List.head?_filterMap,
    List.filterMap_filterMap]
  rfl

/-- Without a fault every mark is written. -/
theorem written_eq_flatMap {marks : List Mark} (h : firstFault? marks = none) :
    written marks = marks.flatMap text := by
  induction marks with
  | nil => rfl
  | cons mark rest ih =>
      rw [firstFault?_cons, Option.or_eq_none_iff] at h
      rw [written, h.1, List.flatMap_cons, ← ih h.2]
      rfl

theorem written_append_of_none {marks : List Mark} (rest : List Mark)
    (h : firstFault? marks = none) :
    written (marks ++ rest) = written marks ++ written rest := by
  induction marks with
  | nil => rfl
  | cons mark marks ih =>
      rw [firstFault?_cons, Option.or_eq_none_iff] at h
      rw [List.cons_append, written, written, h.1, ih h.2]
      simp

theorem written_append_of_some {marks : List Mark} (rest : List Mark)
    {fault : Fault} (h : firstFault? marks = some fault) :
    written (marks ++ rest) = written marks := by
  induction marks with
  | nil => simp at h
  | cons mark marks ih =>
      rw [List.cons_append, written, written]
      cases hmark : mark.fault? with
      | some _ => rfl
      | none =>
          rw [firstFault?_cons, hmark, Option.none_or] at h
          rw [ih h]

end Mark

namespace Printer

open Mark

/-- A printer writes the given marks: whatever text is there, it appends their characters, and stops
in front of the first mark with a fault. -/
def Writes (p : Printer) (marks : List Mark) : Prop :=
  ∀ text, p.appendTo text = (outcome marks, text ++ String.ofList (written marks))

namespace Writes

variable {p q : Printer} {ms ns : List Mark}

theorem nil : Writes (pure ()) [] := by
  intro text
  simp [outcome, written]

/-- What a sequence of two printers writes. -/
theorem seq (hp : p.Writes ms) (hq : q.Writes ns) :
    Writes (do p; q) (ms ++ ns) := by
  intro text
  rw [appendTo_bind, hp text]
  cases hfault : firstFault? ms with
  | none =>
      have hresult : outcome ms = .ok () := by simp [outcome, hfault]
      have hrest : outcome (ms ++ ns) = outcome ns := by
        simp [outcome, firstFault?_append, hfault]
      rw [hresult, hrest, written_append_of_none ns hfault, String.ofList_append]
      simp only [hq _, String.append_assoc]
  | some fault =>
      have hresult : outcome ms = .error fault := by simp [outcome, hfault]
      have hrest : outcome (ms ++ ns) = .error fault := by
        simp [outcome, firstFault?_append, hfault]
      rw [hresult, hrest, written_append_of_some ns hfault]

/-- A fixed text is written as the marks it consists of. -/
theorem put {s : String} (hfault : firstFault? ms = none)
    (htext : s.toList = ms.flatMap Mark.text) : (put s).Writes ms := by
  intro text
  rw [appendTo_put, written_eq_flatMap hfault, ← htext, String.ofList_toList]
  simp [outcome, hfault]

/-- A checked text is written after its check, or not at all. -/
theorem require {result : Except Fault Unit} {s : String} {l : Leaf}
    (hresult : result = outcome [leaf l]) (htext : s.toList = l.text) :
    Writes (do Printer.require result; Printer.put s) [leaf l] := by
  intro text
  rw [appendTo_bind, appendTo_require, hresult, outcome_leaf]
  cases hfault : l.fault? with
  | none =>
      simp [written, hfault, Mark.text, ← htext]
  | some fault =>
      simp [written, hfault]

/-! ### Joins of printers -/

section Joins

variable {items : List Printer} {mss : List (List Mark)}

theorem ledBySpaces (h : List.Forall₂ Writes items mss) :
    Writes (Printer.ledBySpaces items) (Mark.ledBySpaces mss) := by
  induction h with
  | nil => exact nil
  | cons hitem _ ih =>
      have hspace : Writes (Printer.put " ") [space] := put rfl rfl
      exact hspace.seq (hitem.seq ih)

theorem spaced (h : List.Forall₂ Writes items mss) :
    Writes (Printer.spaced items) (Mark.spaced mss) := by
  cases h with
  | nil => exact nil
  | cons hitem hrest => exact hitem.seq (ledBySpaces hrest)

theorem bracketed {opening closing : String} {c d : Char}
    (hopening : opening.toList = [c]) (hclosing : closing.toList = [d])
    (h : List.Forall₂ Writes items mss) :
    Writes (Printer.bracketed opening closing items) (Mark.bracketed c d mss) := by
  have hfirst : Writes (Printer.put opening) [punctuator c] := put rfl hopening
  have hlast : Writes (Printer.put closing) [punctuator d] := put rfl hclosing
  exact hfirst.seq ((spaced h).seq hlast)

theorem block (h : List.Forall₂ Writes items mss) :
    Writes (Printer.block items) (Mark.block mss) := by
  have hfirst : Writes (Printer.put "\x7b") [punctuator '\x7b'] := put rfl rfl
  have hlast : Writes (Printer.put " \x7d") [space, punctuator '\x7d'] := put rfl rfl
  exact hfirst.seq ((ledBySpaces h).seq hlast)

theorem labelled (hp : p.Writes ms) (hq : q.Writes ns) :
    Writes (Printer.labelled p q) (Mark.labelled ms ns) := by
  have hcolon : Writes (Printer.put ": ") [punctuator ':', space] := put rfl rfl
  exact hp.seq (hcolon.seq hq)

end Joins

end Writes

end Printer

end GraphQLText

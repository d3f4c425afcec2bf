import GraphQLText.Fault

/-!
# Printers

A printer writes a part of a tree at the end of a text.  It may stop at a part that has no text;
what it has written until then stays, so that a caller can see how far it came.  Lists of parts are
written by joining the printers of their items: with single spaces between the items, between two
brackets, or with a space before each item.
-/

namespace GraphQLText

/-- A printer extends the text so far and ends well or with a fault. -/
abbrev Printer := ExceptT Fault (StateM String) Unit

namespace Printer

/-- Runs a printer on a text.  The result comes with the text that is then there, after a fault
too. -/
def appendTo (p : Printer) (text : String) : Except Fault Unit × String :=
  (p.run.run text).run

/-- The text that a printer writes on its own, or the fault at which it stops. -/
def print (p : Printer) : Except Fault String :=
  match p.appendTo "" with
  | (.ok (), text) => .ok text
  | (.error fault, _) => .error fault

def put (s : String) : Printer :=
  modify (· ++ s)

def putChars (cs : List Char) : Printer :=
  put (String.ofList cs)

/-- Stops at a fault, having written nothing. -/
def refuse (fault : Fault) : Printer :=
  throw fault

/-- Writes nothing, and stops if a check has failed. -/
def require (result : Except Fault Unit) : Printer :=
  ExceptT.mk (pure result)

/-- Writes each item after a space. -/
def ledBySpaces : List Printer → Printer
  | [] => pure ()
  | item :: rest => do
    put " "
    item
    ledBySpaces rest

/-- Writes the items with a space between two of them. -/
def spaced : List Printer → Printer
  | [] => pure ()
  | item :: rest => do
    item
    ledBySpaces rest

/-- Writes the items, with single spaces, between two brackets. -/
def bracketed (opening closing : String) (items : List Printer) : Printer := do
  put opening
  spaced items
  put closing

/-- Writes the items between braces, each after a space and with a space before the closing
brace. -/
def block (items : List Printer) : Printer := do
  put "\x7b"
  ledBySpaces items
  put " \x7d"

/-- Writes something under a label that a colon sets off. -/
def labelled (label content : Printer) : Printer := do
  label
  put ": "
  content

/-! ### The effect of a printer on a text -/

@[simp] theorem appendTo_pure (text : String) : appendTo (pure ()) text = (.ok (), text) :=
  rfl

@[simp] theorem appendTo_put (s text : String) : (put s).appendTo text = (.ok (), text ++ s) :=
  rfl

@[simp] theorem appendTo_refuse (fault : Fault) (text : String) :
    (refuse fault).appendTo text = (.error fault, text) :=
  rfl

@[simp] theorem appendTo_require (result : Except Fault Unit) (text : String) :
    (require result).appendTo text = (result, text) :=
  rfl

/-- A sequence goes on where its first part has ended, unless that was a fault. -/
theorem appendTo_bind (p q : Printer) (text : String) :
    appendTo (do p; q) text =
      match p.appendTo text with
      | (.ok (), written) => q.appendTo written
      | (.error fault, written) => (.error fault, written) := by
  simp only [appendTo, ExceptT.run_bind, StateT.run_bind]
  rcases p.run.run text with ⟨_ | _, written⟩ <;> rfl

end Printer

end GraphQLText

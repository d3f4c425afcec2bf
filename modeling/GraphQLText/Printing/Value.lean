import GraphQLText.Lexical.Numeral
import GraphQLText.Lexical.StringLiteral
import GraphQLText.Printing.Printer
import GraphQLText.Tree.Value

/-!
# The text of names and values

A name is written once it has passed its check, so that a refused name leaves no character behind.
Lists and objects separate their items by single spaces; no comma is ever written.
-/

namespace GraphQLText

open Printer

def Name.printer (name : Name) : Printer := do
  require name.check
  put name.text

def FragmentName.printer (fragment : FragmentName) : Printer := do
  require fragment.check
  put fragment.name.text

/-- An enum value is written as it is, without quotes. -/
def EnumValue.printer (value : EnumValue) : Printer := do
  require value.check
  put value.name.text

/-- A variable is written after a dollar sign. -/
def Variable.printer (var : Variable) : Printer := do
  put "$"
  var.name.printer

/-- A finite number is written by its literal; the others have none. -/
def Binary.printer {f : BinaryFormat} (x : Binary f) : Printer :=
  match x.nonFinite? with
  | some kind => refuse (.unsupportedNumber (.nonFinite kind))
  | none => putChars (Numeral.ofBinary x)

mutual

/-- A value is written by a literal of its kind. -/
def Value.printer : Value → Printer
  | .string contents => putChars (StringLiteral.ofString contents)
  | .int n => putChars (Numeral.ofInt n.toInt)
  | .single x => x.printer
  | .double x => x.printer
  | .boolean true => put "true"
  | .boolean false => put "false"
  | .null => put "null"
  | .list items => bracketed "[" "]" (Value.printers items)
  | .map entries => bracketed "\x7b" "\x7d" (Value.fieldPrinters entries)
  | .object fields => bracketed "\x7b" "\x7d" (Value.fieldPrinters fields)
  | .variable var => var.printer
  | .enum value => value.printer
termination_by structural value => value

def Value.printers : List Value → List Printer
  | [] => []
  | item :: rest => item.printer :: Value.printers rest
termination_by structural items => items

def Value.fieldPrinters : List (Name × Value) → List Printer
  | [] => []
  | (name, value) :: rest =>
    labelled name.printer value.printer :: Value.fieldPrinters rest
termination_by structural fields => fields

end

def ObjectValue.printer (object : ObjectValue) : Printer :=
  bracketed "\x7b" "\x7d" (Value.fieldPrinters object.fields)

end GraphQLText

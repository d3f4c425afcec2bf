import GraphQLText.Proofs.Printing.Layout

/-!
# The gates of names

A name can be checked when it is made, on demand or when it is written.  All of these gates accept
the same texts, namely the names of the grammar.  Those of fragment names accept all of them but the
reserved word, whether they ask for it first or last, and those of enum values all but theirs.
-/

namespace GraphQLText

open Mark Token

/-- A text that is put after a check is all that is written, if the check goes well. -/
theorem Printer.print_require_put (result : Except Fault Unit) (text : String) :
    print (do require result; put text) = result.map fun _ => text := by
  unfold print
  rw [appendTo_bind, appendTo_require]
  cases result with
  | ok =>
      simp only [appendTo_put, String.empty_append]
      rfl
  | error fault => rfl

namespace Name

variable {text : String} {name : Name}

theorem print_eq : (Node.name name).print = name.check.map fun _ => name.text :=
  Printer.print_require_put name.check name.text

end Name

namespace FragmentName

variable {text : String} {fragment : FragmentName}

theorem print_eq :
    (Node.fragmentName fragment).print = fragment.check.map fun _ => fragment.name.text :=
  Printer.print_require_put fragment.check fragment.name.text

end FragmentName

namespace EnumValue

variable {value : EnumValue}

theorem print_eq :
    (Node.enumValue value).print = value.check.map fun _ => value.name.text :=
  Printer.print_require_put value.check value.name.text

end EnumValue

end GraphQLText

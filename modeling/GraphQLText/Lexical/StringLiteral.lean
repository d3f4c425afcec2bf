/-!
# String literals

A string is written between quotes.  The quote, the backslash and the control characters are
escaped inside it; every other character stands for itself.  So nothing inside a literal ends it or
breaks the line.
-/

namespace GraphQLText.StringLiteral

/-- The Unicode control characters. -/
def isControl (c : Char) : Bool :=
  c.toNat < 0x20 || (0x7f ≤ c.toNat && c.toNat ≤ 0x9f)

/-- The four lower-case hexadecimal digits of a number below `0x10000`. -/
def hexDigits (n : Nat) : List Char :=
  [n / 0x1000 % 16, n / 0x100 % 16, n / 0x10 % 16, n % 16].map Nat.digitChar

/-- A character as it is written inside a literal.  Five control characters have an escape of their
own; the others are escaped by their code. -/
def escape (c : Char) : List Char :=
  match c with
  | '"' => ['\\', '"']
  | '\\' => ['\\', '\\']
  | '\n' => ['\\', 'n']
  | '\r' => ['\\', 'r']
  | '\t' => ['\\', 't']
  | '\x08' => ['\\', 'b']
  | '\x0c' => ['\\', 'f']
  | c => if isControl c then '\\' :: 'u' :: hexDigits c.toNat else [c]

/-- The characters between the quotes. -/
def body (contents : List Char) : List Char :=
  contents.flatMap escape

/-- The literal of a string. -/
def ofString (contents : String) : List Char :=
  '"' :: (body contents.toList ++ ['"'])

end GraphQLText.StringLiteral

/-!
# Tokens

The text of a document is a sequence of tokens.  Spaces, line breaks, commas and comments separate
tokens and mean nothing.  Each token is the longest one that the text at hand starts with: a name or
a number goes on as long as its characters do, and two quotes followed by a third one open a block
string.
-/

namespace GraphQLText

/-- The tokens of a document.  Strings come with their decoded contents, numbers as they are
written, and block strings with all that stands between their quotes. -/
inductive Token where
  | punctuator (c : Char)
  | spread
  | name (text : String)
  | int (text : String)
  | float (text : String)
  | string (contents : String)
  | blockString (text : String)
deriving DecidableEq

namespace Token

/-- The characters between tokens: spaces, line breaks, commas and the byte order mark. -/
def isIgnored (c : Char) : Bool :=
  c == ' ' || c == '\t' || c == '\n' || c == '\r' || c == ',' || c == '\ufeff'

/-- The characters that are tokens on their own. -/
def isPunctuator (c : Char) : Bool :=
  ['!', '$', '(', ')', ':', '=', '@', '[', ']', '\x7b', '|', '\x7d'].contains c

/-- A name starts with an ASCII letter or an underscore. -/
def isNameStart (c : Char) : Bool :=
  c.isAlpha || c == '_'

/-- A name goes on with ASCII letters, digits and underscores. -/
def isNameContinue (c : Char) : Bool :=
  c.isAlphanum || c == '_'

/-- The characters that may occur in a document at all. -/
def isSource (c : Char) : Bool :=
  0x20 ≤ c.toNat || c == '\t' || c == '\n' || c == '\r'

/-- The characters that end a line. -/
def isLineEnd (c : Char) : Bool :=
  c == '\n' || c == '\r'

/-! ### Numbers -/

/-- The digits at the front, and the rest. -/
def takeDigits (cs : List Char) : List Char × List Char :=
  (cs.takeWhile Char.isDigit, cs.dropWhile Char.isDigit)

/-- A natural number at the front, without a leading zero unless it is zero, and the rest. -/
def takeNatural : List Char → Option (List Char × List Char)
  | [] => none
  | c :: cs =>
    if c = '0' then some (['0'], cs)
    else if c.isDigit then some (c :: (takeDigits cs).1, (takeDigits cs).2)
    else none

/-- An integer at the front, and the rest. -/
def takeInteger : List Char → Option (List Char × List Char)
  | '-' :: cs => (takeNatural cs).map fun (digits, rest) => ('-' :: digits, rest)
  | cs => takeNatural cs

/-- A fraction at the front, if there is one: a point with at least one digit after it. -/
def takeFraction : List Char → List Char × List Char
  | '.' :: c :: cs =>
    if c.isDigit then ('.' :: c :: (takeDigits cs).1, (takeDigits cs).2)
    else ([], '.' :: c :: cs)
  | cs => ([], cs)

/-- The sign of an exponent, if there is one. -/
def takeSign : List Char → List Char × List Char
  | '+' :: cs => (['+'], cs)
  | '-' :: cs => (['-'], cs)
  | cs => ([], cs)

/-- An exponent at the front, if there is one: its mark, perhaps a sign and at least one digit. -/
def takeExponent : List Char → List Char × List Char
  | [] => ([], [])
  | c :: cs =>
    let (sign, afterSign) := takeSign cs
    let (digits, rest) := takeDigits afterSign
    if (c = 'e' ∨ c = 'E') ∧ digits ≠ [] then (c :: (sign ++ digits), rest)
    else ([], c :: cs)

/-- A number at the front, and the rest.  A number with a fraction or an exponent is a float. -/
def takeNumber (cs : List Char) : Option (Token × List Char) :=
  (takeInteger cs).map fun (integer, afterInteger) =>
    let (fraction, afterFraction) := takeFraction afterInteger
    let (exponent, rest) := takeExponent afterFraction
    if fraction = [] ∧ exponent = [] then (int (String.ofList integer), rest)
    else (float (String.ofList (integer ++ fraction ++ exponent)), rest)

/-! ### Strings -/

/-- The value of a hexadecimal digit of either case. -/
def hexValue? (c : Char) : Option Nat :=
  if c.isDigit then some (c.toNat - '0'.toNat)
  else if 'a' ≤ c ∧ c ≤ 'f' then some (c.toNat - 'a'.toNat + 10)
  else if 'A' ≤ c ∧ c ≤ 'F' then some (c.toNat - 'A'.toNat + 10)
  else none

/-- The character with the given code in four hexadecimal digits, unless it is a surrogate. -/
def codedChar? (a b c d : Char) : Option Char := do
  let code := (← hexValue? a) * 0x1000 + (← hexValue? b) * 0x100 + (← hexValue? c) * 0x10 +
    (← hexValue? d)
  if code.isValidChar then some (Char.ofNat code) else none

/-- The character that an escape of one letter stands for. -/
def escapedChar? : Char → Option Char
  | '"' => some '"'
  | '\\' => some '\\'
  | '/' => some '/'
  | 'b' => some '\x08'
  | 'f' => some '\x0c'
  | 'n' => some '\n'
  | 'r' => some '\r'
  | 't' => some '\t'
  | _ => none

/-- The decoded contents of a string up to its closing quote, and the rest after it.  A string ends
on the line on which it starts. -/
def takeString : List Char → Option (List Char × List Char)
  | [] => none
  | '"' :: rest => some ([], rest)
  | '\\' :: 'u' :: a :: b :: c :: d :: cs => do
    let code ← codedChar? a b c d
    (takeString cs).map fun (contents, rest) => (code :: contents, rest)
  | '\\' :: c :: cs => do
    let plain ← escapedChar? c
    (takeString cs).map fun (contents, rest) => (plain :: contents, rest)
  | c :: cs =>
    if isSource c && !isLineEnd c && c != '\\' then
      (takeString cs).map fun (contents, rest) => (c :: contents, rest)
    else none

/-- The text of a block string up to its three closing quotes, and the rest after them. -/
def takeBlockString : List Char → Option (List Char × List Char)
  | [] => none
  | '"' :: '"' :: '"' :: rest => some ([], rest)
  | '\\' :: '"' :: '"' :: '"' :: cs =>
    (takeBlockString cs).map fun (text, rest) => ('"' :: '"' :: '"' :: text, rest)
  | c :: cs =>
    if isSource c then (takeBlockString cs).map fun (text, rest) => (c :: text, rest)
    else none

/-! ### Tokens of a text -/

/-- The token at the front of a text that starts with the character `c`, and what follows it.
Characters that are ignored, and comments, yield no token. -/
def next (c : Char) (cs : List Char) : Option (Option Token × List Char) :=
  if isIgnored c then some (none, cs)
  else if c = '#' then some (none, cs.dropWhile fun d => isSource d && !isLineEnd d)
  else if isPunctuator c then some (some (punctuator c), cs)
  else if isNameStart c then
    some (some (name (String.ofList (c :: cs.takeWhile isNameContinue))),
      cs.dropWhile isNameContinue)
  else if c = '.' then
    match cs with
    | '.' :: '.' :: rest => some (some spread, rest)
    | _ => none
  else if c = '"' then
    match cs with
    | '"' :: '"' :: rest =>
      (takeBlockString rest).map fun (text, rest) =>
        (some (blockString (String.ofList text)), rest)
    | _ =>
      (takeString cs).map fun (contents, rest) => (some (string (String.ofList contents)), rest)
  else (takeNumber (c :: cs)).map fun (number, rest) => (some number, rest)

end Token

end GraphQLText

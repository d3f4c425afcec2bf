import GraphQLText.Fault

/-!
# Names

Names are stored as given and checked only when they are written, so that a tree can be built from
arbitrary identifiers.  A name is a letter or an underscore followed by letters, digits and
underscores, all of them ASCII; it can therefore be checked on its UTF-8 bytes, as no byte of a
longer encoding is an ASCII character.  Two uses of a name reserve some words: a fragment is never
called `on`, and an enum value is never `true`, `false` or `null`.
-/

namespace GraphQLText

/-- A name is any text until it is checked.  Names are ordered by their code points. -/
structure Name where
  text : String
deriving DecidableEq

namespace Name

instance : Ord Name := ⟨fun a b => compare a.text b.text⟩

def isLetter (b : UInt8) : Bool :=
  (65 ≤ b && b ≤ 90) || (97 ≤ b && b ≤ 122)

def isDigit (b : UInt8) : Bool :=
  48 ≤ b && b ≤ 57

/-- A name starts with a letter or an underscore. -/
def isStart (b : UInt8) : Bool :=
  isLetter b || b == 95

/-- A name goes on with letters, digits and underscores. -/
def isContinue (b : UInt8) : Bool :=
  isStart b || isDigit b

/-- Whether bytes spell a name. -/
def spelled : List UInt8 → Bool
  | [] => false
  | b :: rest => isStart b && rest.all isContinue

/-- Whether the stored text is a GraphQL name. -/
def isValid (name : Name) : Bool :=
  spelled name.text.toByteArray.data.toList

/-- The name with this text, if the text is a GraphQL name. -/
def ofText? (text : String) : Option Name :=
  let name : Name := ⟨text⟩
  if name.isValid then some name else none

/-- Refuses a text that is not a GraphQL name. -/
def check (name : Name) : Except Fault Unit :=
  if name.isValid then .ok () else .error (.invalidName name.text)

end Name

/-- The name of a fragment. -/
structure FragmentName where
  name : Name
deriving DecidableEq

namespace FragmentName

/-- The keyword before a type condition names no fragment. -/
def reserved : Name := ⟨"on"⟩

/-- The fragment name with this text, if the text is a GraphQL name and not reserved. -/
def ofText? (text : String) : Option FragmentName :=
  if text = reserved.text then none else (Name.ofText? text).map FragmentName.mk

/-- Refuses a text that is not a GraphQL name, then the reserved one. -/
def check (fragment : FragmentName) : Except Fault Unit := do
  fragment.name.check
  if fragment.name = reserved then .error .reservedFragmentName

end FragmentName

/-- An enum value is a name that is written without quotes. -/
structure EnumValue where
  name : Name
deriving DecidableEq

namespace EnumValue

/-- The words that denote values of other kinds. -/
def reserved : List Name := [⟨"true"⟩, ⟨"false"⟩, ⟨"null"⟩]

/-- Refuses a text that is not a GraphQL name, then the reserved ones. -/
def check (value : EnumValue) : Except Fault Unit := do
  value.name.check
  if value.name ∈ reserved then .error (.reservedEnumValue value.name.text)

end EnumValue

/-- A variable, by its name without the dollar sign. -/
structure Variable where
  name : Name
deriving DecidableEq

end GraphQLText

import GraphQLText.Lexical.Lexer

/-!
# The grammar of executable documents

The productions of the June 2018 edition, read as sets of sequences of tokens.  They say nothing
about trees, so that a text may be derivable in more than one way.  A text is derivable if its
tokens, each the longest one at its place, are those of a document.
-/

namespace GraphQLText.Grammar

/-- What may be left out. -/
inductive Optional (rule : List Token → Prop) : List Token → Prop
  | none : Optional rule []
  | some {ts : List Token} : rule ts → Optional rule ts

/-- One or more in a row. -/
inductive Many (rule : List Token → Prop) : List Token → Prop
  | one {ts : List Token} : rule ts → Many rule ts
  | more {ts us : List Token} : rule ts → Many rule us → Many rule (ts ++ us)

/-- The words that are no enum values. -/
def reservedWords : List String :=
  ["true", "false", "null"]

mutual

/-- A value.  A constant has no variable in it. -/
inductive Value : Bool → List Token → Prop
  | variable (name : String) : Value false [.punctuator '$', .name name]
  | int {const : Bool} (text : String) : Value const [.int text]
  | float {const : Bool} (text : String) : Value const [.float text]
  | string {const : Bool} (contents : String) : Value const [.string contents]
  | blockString {const : Bool} (text : String) : Value const [.blockString text]
  | boolean {const : Bool} {text : String} :
      text ∈ ["true", "false"] → Value const [.name text]
  | null {const : Bool} : Value const [.name "null"]
  | enum {const : Bool} {text : String} : text ∉ reservedWords → Value const [.name text]
  | list {const : Bool} {ts : List Token} :
      Values const ts → Value const (.punctuator '[' :: (ts ++ [.punctuator ']']))
  | object {const : Bool} {ts : List Token} :
      ObjectFields const ts →
        Value const (.punctuator '\x7b' :: (ts ++ [.punctuator '\x7d']))

inductive Values : Bool → List Token → Prop
  | nil {const : Bool} : Values const []
  | cons {const : Bool} {ts us : List Token} :
      Value const ts → Values const us → Values const (ts ++ us)

inductive ObjectFields : Bool → List Token → Prop
  | nil {const : Bool} : ObjectFields const []
  | cons {const : Bool} {ts us : List Token} (name : String) :
      Value const ts → ObjectFields const us →
        ObjectFields const ((.name name :: .punctuator ':' :: ts) ++ us)

end

inductive Argument : List Token → Prop
  | mk (name : String) {ts : List Token} :
      Value false ts → Argument (.name name :: .punctuator ':' :: ts)

/-- Arguments in parentheses, at least one. -/
inductive Arguments : List Token → Prop
  | mk {ts : List Token} :
      Many Argument ts → Arguments (.punctuator '(' :: (ts ++ [.punctuator ')']))

/-- A directive, with arguments or without. -/
inductive Directive : List Token → Prop
  | mk (name : String) {ts : List Token} :
      Optional Arguments ts → Directive (.punctuator '@' :: .name name :: ts)

def Directives : List Token → Prop :=
  Many Directive

inductive Alias : List Token → Prop
  | mk (name : String) : Alias [.name name, .punctuator ':']

/-- The condition under which a fragment applies. -/
inductive TypeCondition : List Token → Prop
  | mk (name : String) : TypeCondition [.name "on", .name name]

mutual

/-- Selections in braces. -/
inductive SelectionSet : List Token → Prop
  | mk {ts : List Token} :
      Selections ts → SelectionSet (.punctuator '\x7b' :: (ts ++ [.punctuator '\x7d']))

inductive Selections : List Token → Prop
  | one {ts : List Token} : Selection ts → Selections ts
  | more {ts us : List Token} : Selection ts → Selections us → Selections (ts ++ us)

/-- A field, with selections or without, a spread or an inline fragment. -/
inductive Selection : List Token → Prop
  | leafField (name : String) {cs ts ds : List Token} :
      Optional Alias cs → Optional Arguments ts → Optional Directives ds →
        Selection (cs ++ .name name :: (ts ++ ds))
  | field (name : String) {cs ts ds ss : List Token} :
      Optional Alias cs → Optional Arguments ts → Optional Directives ds → SelectionSet ss →
        Selection (cs ++ .name name :: (ts ++ (ds ++ ss)))
  | spread {name : String} {ds : List Token} :
      name ≠ "on" → Optional Directives ds → Selection (.spread :: .name name :: ds)
  | inlineFragment {cs ds ss : List Token} :
      Optional TypeCondition cs → Optional Directives ds → SelectionSet ss →
        Selection (.spread :: (cs ++ (ds ++ ss)))

end

mutual

/-- A type, which may be marked as non-null. -/
inductive TypeReference : List Token → Prop
  | nullable {ts : List Token} : NullableType ts → TypeReference ts
  | nonNull {ts : List Token} :
      NullableType ts → TypeReference (ts ++ [.punctuator '!'])

/-- A named type, or a list type around one type. -/
inductive NullableType : List Token → Prop
  | named (name : String) : NullableType [.name name]
  | list {ts : List Token} :
      TypeReference ts → NullableType (.punctuator '[' :: (ts ++ [.punctuator ']']))

end

/-- A default value is a constant. -/
inductive DefaultValue : List Token → Prop
  | mk {ts : List Token} : Value true ts → DefaultValue (.punctuator '=' :: ts)

/-- A variable and its type with a colon between them, and perhaps a default value. -/
inductive VariableDefinition : List Token → Prop
  | mk (name : String) {ts ds : List Token} :
      TypeReference ts → Optional DefaultValue ds →
        VariableDefinition (.punctuator '$' :: .name name :: .punctuator ':' :: (ts ++ ds))

inductive VariableDefinitions : List Token → Prop
  | mk {ts : List Token} :
      Many VariableDefinition ts →
        VariableDefinitions (.punctuator '(' :: (ts ++ [.punctuator ')']))

inductive OperationName : List Token → Prop
  | mk (name : String) : OperationName [.name name]

/-- An operation, or a fragment on a type.  A selection set on its own is a query. -/
inductive Definition : List Token → Prop
  | shorthand {ss : List Token} : SelectionSet ss → Definition ss
  | operation {keyword : String} {ns vs ds ss : List Token} :
      keyword ∈ ["query", "mutation", "subscription"] → Optional OperationName ns →
        Optional VariableDefinitions vs → Optional Directives ds → SelectionSet ss →
        Definition (.name keyword :: (ns ++ (vs ++ (ds ++ ss))))
  | fragment {name : String} {cs ds ss : List Token} :
      name ≠ "on" → TypeCondition cs → Optional Directives ds → SelectionSet ss →
        Definition (.name "fragment" :: .name name :: (cs ++ (ds ++ ss)))

/-- A document has at least one definition. -/
def Document : List Token → Prop :=
  Many Definition

/-- The text consists of the tokens of a document. -/
def Derivable (text : String) : Prop :=
  ∃ tokens, Token.lex text.toList = some tokens ∧ Document tokens

end GraphQLText.Grammar

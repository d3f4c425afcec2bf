import GraphQLText.Lexical.Lexer
import GraphQLText.Reading.Literal
import GraphQLText.Reading.Number

/-!
# Reading documents

A reader of executable documents.  It follows the grammar of executable documents from left to right
and never goes back.  It accepts a little more than the grammar: selection sets without selections,
list types of any number of items, and variables in default values.  Recursion is bounded by the
number of tokens, which no nesting exceeds.
-/

namespace GraphQLText

/-- A reader takes tokens from the front of a list. -/
abbrev Reader := StateT (List Token) Option

namespace Reader

/-- The next token, which stays where it is. -/
def peek : Reader (Option Token) :=
  fun tokens => some (tokens.head?, tokens)

def take : Reader Token
  | [] => none
  | token :: rest => some (token, rest)

/-- Takes a token that must be the given one. -/
def expect (token : Token) : Reader Unit := do
  if (← take) = token then return () else failure

def punctuator (c : Char) : Reader Unit :=
  expect (.punctuator c)

def atPunctuator (c : Char) : Reader Bool := do
  return (← peek) = some (.punctuator c)

def name : Reader Name := do
  match ← take with
  | .name text => return ⟨text⟩
  | _ => failure

def fragmentName : Reader FragmentName := do
  let name ← name
  if name = FragmentName.reserved then failure else return ⟨name⟩

variable {α : Type}

/-- Takes items up to a closing punctuator, at most `fuel` of them, and the punctuator. -/
def itemsUntil (closing : Char) (item : Reader α) : Nat → Reader (List α)
  | 0 => failure
  | fuel + 1 => do
    if ← atPunctuator closing then
      punctuator closing
      return []
    else
      let first ← item
      let rest ← itemsUntil closing item fuel
      return first :: rest

/-- Takes items between two punctuators. -/
def between (opening closing : Char) (item : Reader α) (fuel : Nat) : Reader (List α) := do
  punctuator opening
  itemsUntil closing item fuel

/-- Takes items between two parentheses, at least one, or nothing. -/
def parenthesized? (item : Reader α) (fuel : Nat) : Reader (List α) := do
  if ← atPunctuator '(' then
    let items ← between '(' ')' item fuel
    if items.isEmpty then failure else return items
  else return []

/-- Takes something under a name that a colon sets off. -/
def named (item : Reader α) : Reader (Name × α) := do
  let key ← name
  punctuator ':'
  return (key, ← item)

def value : Nat → Reader Literal
  | 0 => failure
  | fuel + 1 => do
    match ← take with
    | .string contents => return .string contents
    | .blockString text => return .blockString text
    | .int text => return .int (Numeral.integer text.toList)
    | .float text => return .float text
    | .name text => return Literal.ofWord text
    | .punctuator '$' => return .variable ⟨← name⟩
    | .punctuator '[' => return .list (← itemsUntil ']' (value fuel) fuel)
    | .punctuator '\x7b' => return .object (← itemsUntil '\x7d' (named (value fuel)) fuel)
    | _ => failure

def arguments (fuel : Nat) : Reader (Arguments Literal) := do
  return Arguments.ofPairs (← parenthesized? (named (value fuel)) fuel)

/-- Takes directives, as long as there are any. -/
def directives : Nat → Reader (List (Directive Literal))
  | 0 => failure
  | fuel + 1 => do
    if ← atPunctuator '@' then
      punctuator '@'
      let name ← name
      let arguments ← arguments fuel
      let rest ← directives fuel
      return ⟨name, arguments⟩ :: rest
    else return []

def typeCondition? : Reader (Option Name) := do
  if (← peek) = some (.name "on") then
    expect (.name "on")
    return some (← name)
  else return none

/-- Takes a selection set, given how to take a selection. -/
def selectionSet (selection : Reader (Selection Literal)) (fuel : Nat) :
    Reader (SelectionSet Literal) := do
  return ⟨← between '\x7b' '\x7d' selection fuel⟩

/-- Takes a selection set, if there is one. -/
def selectionSet? (selection : Reader (Selection Literal)) (fuel : Nat) :
    Reader (SelectionSet Literal) := do
  if ← atPunctuator '\x7b' then selectionSet selection fuel else return ⟨[]⟩

/-- Takes the name of a field, with the alias before it if it has one. -/
def fieldName : Reader (Option Name × Name) := do
  let first ← name
  if ← atPunctuator ':' then
    punctuator ':'
    return (some first, ← name)
  else return (none, first)

/-- Takes a selection.  After three dots, a name other than `on` makes a spread. -/
def selection : Nat → Reader (Selection Literal)
  | 0 => failure
  | fuel + 1 => do
    if (← peek) = some .spread then
      expect .spread
      match ← peek with
      | some (.name text) =>
        if text = "on" then
          let condition ← typeCondition?
          let directives ← directives fuel
          let set ← selectionSet (selection fuel) fuel
          return .inlineFragment ⟨condition, directives, set⟩
        else
          let name ← fragmentName
          let directives ← directives fuel
          return .spread ⟨name, directives⟩
      | _ =>
        let directives ← directives fuel
        let set ← selectionSet (selection fuel) fuel
        return .inlineFragment ⟨none, directives, set⟩
    else
      let (aliasName, name) ← fieldName
      let arguments ← arguments fuel
      let directives ← directives fuel
      let set ← selectionSet? (selection fuel) fuel
      return .field ⟨aliasName, name, arguments, directives, set⟩

/-- Takes a list type or a named type, given how to take an item of a list type. -/
def nullableType (item : Reader TypeReference) (fuel : Nat) : Reader NonNullType := do
  if ← atPunctuator '[' then return .list (← between '[' ']' item fuel)
  else return .named (← name)

def typeReference : Nat → Reader TypeReference
  | 0 => failure
  | fuel + 1 => do
    let type ← nullableType (typeReference fuel) fuel
    if ← atPunctuator '!' then
      punctuator '!'
      return .nonNull type
    else return type.nullable

def variableDefinition (fuel : Nat) : Reader (VariableDefinition Literal) := do
  punctuator '$'
  let (name, type) ← named (typeReference fuel)
  if ← atPunctuator '=' then
    punctuator '='
    return ⟨⟨name⟩, type, some (← value fuel)⟩
  else return ⟨⟨name⟩, type, none⟩

/-- The kind of operation with the given keyword. -/
def operationType? : String → Option OperationType
  | "query" => some .query
  | "mutation" => some .mutation
  | "subscription" => some .subscription
  | _ => none

def operationName? : Reader (Option Name) := do
  match ← peek with
  | some (.name _) => return some (← name)
  | _ => return none

/-- Takes a definition.  A selection set on its own is a query without a name. -/
def definition (fuel : Nat) : Reader (Definition Literal) := do
  if ← atPunctuator '\x7b' then
    return .operation { type := .query, selectionSet := ← selectionSet (selection fuel) fuel }
  else
    let keyword ← name
    if keyword.text = "fragment" then
      let name ← fragmentName
      match ← typeCondition? with
      | some condition =>
        let directives ← directives fuel
        let set ← selectionSet (selection fuel) fuel
        return .fragment ⟨name, condition, directives, set⟩
      | none => failure
    else
      let type ← StateT.lift (operationType? keyword.text)
      let name ← operationName?
      let variableDefinitions ← parenthesized? (variableDefinition fuel) fuel
      let directives ← directives fuel
      let set ← selectionSet (selection fuel) fuel
      return .operation ⟨type, name, variableDefinitions, directives, set⟩

def definitions (bound : Nat) : Nat → Reader (List (Definition Literal))
  | 0 => failure
  | fuel + 1 => do
    match ← peek with
    | none => return []
    | some _ =>
      let first ← definition bound
      let rest ← definitions bound fuel
      return first :: rest

end Reader

/-- The value that a text stands for, if it is one. -/
def Literal.read? (text : String) : Option Literal := do
  let tokens ← Token.lex text.toList
  let (literal, rest) ← Reader.value (tokens.length + 1) tokens
  if rest.isEmpty then some literal else none

/-- The document that a text stands for, if it is one.  A document has at least one definition. -/
def Document.read? (text : String) : Option (Document Literal) := do
  let tokens ← Token.lex text.toList
  let bound := tokens.length + 1
  let (definitions, _) ← Reader.definitions bound bound tokens
  if definitions.isEmpty then none else some ⟨definitions⟩

end GraphQLText

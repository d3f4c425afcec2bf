import GraphQLText.Proofs.Lexical.NameSyntax
import GraphQLText.Proofs.Printing.Layout
import Mathlib.Data.List.Chain

/-!
# The spacing of a text

Which mark may stand right before which other one.  Every item opens with a mark that may follow a
space or an opening bracket, and goes on to anything that may follow a closed item; every optional
part goes on where an item has closed.  The marks of all nodes are built from items and optional
parts, so no two neighbours among them ever clash, whatever parts are missing.
-/

namespace GraphQLText

namespace Mark

/-! ### Neighbours -/

/-- Marks of more than one character that a neighbour could run into. -/
def IsSolid : Mark → Prop
  | word _ | int _ | string _ | leaf _ => True
  | space | punctuator _ | spread => False

/-- Marks with which an item opens. -/
def Opens (mark : Mark) : Prop :=
  mark.IsSolid ∨ mark = spread ∨ ∃ c ∈ ['$', '[', '\x7b', '@'], mark = punctuator c

/-- Marks with which an item closes. -/
def Closes (mark : Mark) : Prop :=
  mark.IsSolid ∨ ∃ c ∈ [')', ']', '\x7d', '!'], mark = punctuator c

/-- Marks that may follow a closed item. -/
def Follows (mark : Mark) : Prop :=
  mark = space ∨ ∃ c ∈ ['(', ')', ']', '\x7d', ':', '!'], mark = punctuator c

/-- The one mark may stand right before the other. -/
inductive Precedes : Mark → Mark → Prop
  | item {m n : Mark} : m.Closes → n.Follows → Precedes m n
  | space {n : Mark} : n.Opens → Precedes space n
  | opening {c : Char} {n : Mark} :
      c ∈ ['(', '[', '\x7b'] → n.Opens → Precedes (punctuator c) n
  | sigil {c : Char} {n : Mark} : c ∈ ['$', '@'] → n.IsSolid → Precedes (punctuator c) n
  | separator {c : Char} : c ∈ [':', '='] → Precedes (punctuator c) .space
  | beforeEquals : Precedes .space (punctuator '=')
  | spread : Precedes spread .space
  | emptyList : Precedes (punctuator '[') (punctuator ']')
  | emptyObject : Precedes (punctuator '\x7b') (punctuator '\x7d')
  | blockOpening : Precedes (punctuator '\x7b') .space
  | blockClosing : Precedes .space (punctuator '\x7d')

/-- Punctuators are those of the grammar, and words are names. -/
def IsProper : Mark → Prop
  | punctuator c => Token.isPunctuator c = true
  | word w => Token.IsName w.toList
  | _ => True

/-- Proper marks without a clash between neighbours. -/
def Spaced (marks : List Mark) : Prop :=
  marks.IsChain Precedes ∧ ∀ mark ∈ marks, mark.IsProper

/-- Well spaced marks that may follow a closed item. -/
def Continues (marks : List Mark) : Prop :=
  Spaced marks ∧ ∀ mark ∈ marks.head?, mark.Follows

/-- The marks of an item, whatever goes on after it. -/
structure Phrase (marks : List Mark) : Prop where
  opens : ∃ mark rest, marks = mark :: rest ∧ mark.Opens
  spaced : ∀ ⦃rest⦄, Continues rest → Spaced (marks ++ rest)

/-- The marks of an optional part, whatever goes on after it. -/
def Tail (marks : List Mark) : Prop :=
  ∀ ⦃rest⦄, Continues rest → Continues (marks ++ rest)

theorem Spaced.cons {mark : Mark} {marks : List Mark} (h : Spaced marks)
    (hproper : mark.IsProper) (hhead : ∀ next ∈ marks.head?, mark.Precedes next) :
    Spaced (mark :: marks) := by
  refine ⟨h.1.cons hhead, ?_⟩
  intro m hm
  rcases List.mem_cons.mp hm with rfl | hm
  · exact hproper
  · exact h.2 m hm

theorem spaced_nil : Spaced [] :=
  ⟨.nil, by simp⟩

theorem continues_nil : Continues [] :=
  ⟨spaced_nil, by simp⟩

/-- A closed item goes on to what may follow it. -/
theorem Continues.spaced_cons {mark : Mark} {rest : List Mark} (h : Continues rest)
    (hproper : mark.IsProper) (hcloses : mark.Closes) : Spaced (mark :: rest) :=
  h.1.cons hproper fun next hnext => .item hcloses (h.2 next hnext)

theorem Spaced.continues_cons {mark : Mark} {marks : List Mark} (h : Spaced (mark :: marks))
    (hfollows : mark.Follows) : Continues (mark :: marks) :=
  ⟨h, by simpa using hfollows⟩

namespace Phrase

variable {ms ns : List Mark}

theorem head_opens (h : Phrase ms) (rest : List Mark) :
    ∀ mark ∈ (ms ++ rest).head?, mark.Opens := by
  obtain ⟨mark, tail, rfl, hopens⟩ := h.opens
  simpa using hopens

/-- A mark in front of an item. -/
theorem spaced_cons (h : Phrase ms) {mark : Mark} {rest : List Mark} (hrest : Continues rest)
    (hproper : mark.IsProper) (hmark : ∀ next : Mark, next.Opens → mark.Precedes next) :
    Spaced (mark :: (ms ++ rest)) :=
  (h.spaced hrest).cons hproper fun next hnext => hmark next (h.head_opens rest next hnext)

theorem solid {mark : Mark} (hproper : mark.IsProper) (hsolid : mark.IsSolid) :
    Phrase [mark] where
  opens := ⟨mark, [], rfl, Or.inl hsolid⟩
  spaced := fun _ hrest => hrest.spaced_cons hproper (Or.inl hsolid)

theorem leaf (l : Leaf) : Phrase [Mark.leaf l] :=
  solid trivial trivial

theorem word {w : String} (h : Token.IsName w.toList) : Phrase [Mark.word w] :=
  solid h trivial

/-- A leaf after a dollar sign or an at sign. -/
theorem sigil {c : Char} (hc : c ∈ ['$', '@']) (l : Leaf) :
    Phrase [punctuator c, Mark.leaf l] := by
  constructor
  · refine ⟨_, _, rfl, Or.inr (Or.inr ⟨c, ?_, rfl⟩)⟩
    simp only [List.mem_cons, List.not_mem_nil, or_false] at hc ⊢
    rcases hc with rfl | rfl
    · exact Or.inl rfl
    · exact Or.inr (Or.inr (Or.inr rfl))
  · intro rest hrest
    have hleaf : Spaced (Mark.leaf l :: rest) :=
      hrest.spaced_cons trivial (Or.inl trivial)
    refine hleaf.cons ?_ ?_
    · simp only [List.mem_cons, List.not_mem_nil, or_false] at hc
      rcases hc with rfl | rfl <;> rfl
    · intro next hnext
      rw [List.head?_cons, Option.mem_some_iff] at hnext
      subst hnext
      exact .sigil hc trivial

/-- An item with an optional part after it. -/
theorem tail (h : Phrase ms) (htail : Tail ns) : Phrase (ms ++ ns) := by
  constructor
  · obtain ⟨mark, rest, rfl, hopens⟩ := h.opens
    exact ⟨mark, rest ++ ns, rfl, hopens⟩
  · intro rest hrest
    rw [List.append_assoc]
    exact h.spaced (htail hrest)

theorem led (h : Phrase ms) : Tail (space :: ms) := by
  intro rest hrest
  have hspaced : Spaced (space :: (ms ++ rest)) := h.spaced_cons hrest trivial fun _ => .space
  exact hspaced.continues_cons (Or.inl rfl)

end Phrase

/-! ### Joins -/

theorem tail_nil : Tail [] :=
  fun _ h => h

theorem Tail.append {ms ns : List Mark} (h : Tail ms) (h' : Tail ns) : Tail (ms ++ ns) := by
  intro rest hrest
  rw [List.append_assoc]
  exact h (h' hrest)

section Joins

variable {mss : List (List Mark)}

theorem tail_ledBySpaces (h : ∀ ms ∈ mss, Phrase ms) : Tail (ledBySpaces mss) := by
  induction mss with
  | nil => exact tail_nil
  | cons ms rest ih =>
      have hfirst := (h ms (List.mem_cons_self ..)).led
      exact hfirst.append (ih fun ns hns => h ns (List.mem_cons_of_mem _ hns))

theorem phrase_spaced (h : ∀ ms ∈ mss, Phrase ms) (hne : mss ≠ []) :
    Phrase (Mark.spaced mss) := by
  cases mss with
  | nil => exact absurd rfl hne
  | cons ms rest =>
      have hrest := tail_ledBySpaces fun ns hns => h ns (List.mem_cons_of_mem _ hns)
      exact (h ms (List.mem_cons_self ..)).tail hrest

/-- Items between brackets, of which there is at least one. -/
theorem spaced_bracketed {c d : Char} (hc : c ∈ ['(', '[', '\x7b'])
    (hd : d ∈ [')', ']', '\x7d']) (h : ∀ ms ∈ mss, Phrase ms) (hne : mss ≠ [])
    {rest : List Mark} (hrest : Continues rest) : Spaced (bracketed c d mss ++ rest) := by
  have hclosing : Continues (punctuator d :: rest) := by
    simp only [List.mem_cons, List.not_mem_nil, or_false] at hd
    refine (hrest.spaced_cons ?_ (Or.inr ⟨d, ?_, rfl⟩)).continues_cons (Or.inr ⟨d, ?_, rfl⟩)
    · rcases hd with rfl | rfl | rfl <;> rfl
    · rcases hd with rfl | rfl | rfl <;> simp
    · rcases hd with rfl | rfl | rfl <;> simp
  rw [bracketed, List.cons_append, List.append_assoc]
  refine (phrase_spaced h hne).spaced_cons hclosing ?_ fun _ => .opening hc
  simp only [List.mem_cons, List.not_mem_nil, or_false] at hc
  rcases hc with rfl | rfl | rfl <;> rfl

/-- The parentheses of arguments or variables, of which there is at least one. -/
theorem tail_parenthesized (h : ∀ ms ∈ mss, Phrase ms) (hne : mss ≠ []) :
    Tail (bracketed '(' ')' mss) := by
  intro rest hrest
  refine (spaced_bracketed ?_ ?_ h hne hrest).continues_cons (Or.inr ⟨'(', ?_, rfl⟩)
  · simp
  · simp
  · simp

/-- The items of a list or of an object, of which there may be none. -/
theorem phrase_bracketed {c d : Char} (hc : c = '[' ∧ d = ']' ∨ c = '\x7b' ∧ d = '\x7d')
    (h : ∀ ms ∈ mss, Phrase ms) : Phrase (bracketed c d mss) := by
  constructor
  · refine ⟨_, _, rfl, Or.inr (Or.inr ⟨c, ?_, rfl⟩)⟩
    rcases hc with ⟨rfl, -⟩ | ⟨rfl, -⟩ <;> simp
  · intro rest hrest
    by_cases hne : mss = []
    · subst hne
      rcases hc with ⟨rfl, rfl⟩ | ⟨rfl, rfl⟩
      · have hclosing : Spaced (punctuator ']' :: rest) :=
          hrest.spaced_cons rfl (Or.inr ⟨']', by simp, rfl⟩)
        exact hclosing.cons rfl (by simpa using .emptyList)
      · have hclosing : Spaced (punctuator '\x7d' :: rest) :=
          hrest.spaced_cons rfl (Or.inr ⟨'\x7d', by simp, rfl⟩)
        exact hclosing.cons rfl (by simpa using .emptyObject)
    · refine spaced_bracketed ?_ ?_ h hne hrest
      · rcases hc with ⟨rfl, -⟩ | ⟨rfl, -⟩ <;> simp
      · rcases hc with ⟨-, rfl⟩ | ⟨-, rfl⟩ <;> simp

theorem head?_ledBySpaces_append (mss : List (List Mark)) (rest : List Mark) :
    (ledBySpaces mss ++ space :: rest).head? = some space := by
  cases mss with
  | nil => rfl
  | cons ms mss => rfl

/-- The items of a block are led by spaces, and so is its closing brace. -/
theorem phrase_block (h : ∀ ms ∈ mss, Phrase ms) : Phrase (block mss) := by
  constructor
  · exact ⟨_, _, rfl, Or.inr (Or.inr ⟨'\x7b', by simp, rfl⟩)⟩
  · intro rest hrest
    have hclosing : Spaced (punctuator '\x7d' :: rest) :=
      hrest.spaced_cons rfl (Or.inr ⟨'\x7d', by simp, rfl⟩)
    have hspace : Spaced (space :: punctuator '\x7d' :: rest) :=
      hclosing.cons trivial (by simpa using .blockClosing)
    have hlast := hspace.continues_cons (Or.inl rfl)
    rw [block, List.cons_append, List.append_assoc]
    refine (tail_ledBySpaces h hlast).1.cons rfl ?_
    rw [head?_ledBySpaces_append]
    simpa using .blockOpening

theorem phrase_labelled {ms ns : List Mark} (h : Phrase ms) (h' : Phrase ns) :
    Phrase (labelled ms ns) := by
  refine h.tail ?_
  intro rest hrest
  have hspace : Spaced (space :: (ns ++ rest)) := h'.spaced_cons hrest trivial fun _ => .space
  have hcolon : Spaced (punctuator ':' :: space :: (ns ++ rest)) :=
    hspace.cons rfl (by simpa using .separator (by simp))
  exact hcolon.continues_cons (Or.inr ⟨':', by simp, rfl⟩)

end Joins

/-- Three dots in front of a part that a space leads. -/
theorem phrase_spread {ms : List Mark} (h : Tail ms) (hhead : ms.head? = some space) :
    Phrase (Mark.spread :: ms) := by
  constructor
  · exact ⟨_, _, rfl, Or.inr (Or.inl rfl)⟩
  · intro rest hrest
    refine (h hrest).1.cons trivial ?_
    rw [List.head?_append, hhead]
    simpa using .spread

end Mark

open Mark

/-! ### Nodes -/

mutual

theorem Value.phrase : ∀ value : Value, Phrase value.marks
  | .string _ => .solid trivial trivial
  | .int _ => .solid trivial trivial
  | .single _ => .leaf _
  | .double _ => .leaf _
  | .boolean true => .word (by decide)
  | .boolean false => .word (by decide)
  | .null => .word (by decide)
  | .list items => phrase_bracketed (Or.inl ⟨rfl, rfl⟩) (Value.phrases items)
  | .map entries => phrase_bracketed (Or.inr ⟨rfl, rfl⟩) (Value.fieldPhrases entries)
  | .object fields => phrase_bracketed (Or.inr ⟨rfl, rfl⟩) (Value.fieldPhrases fields)
  | .variable _ => .sigil (by simp) _
  | .enum _ => .leaf _
termination_by structural value => value

theorem Value.phrases : ∀ items : List Value, ∀ ms ∈ Value.marksOfItems items, Phrase ms
  | [] => List.forall_mem_nil _
  | item :: rest => List.forall_mem_cons.mpr ⟨Value.phrase item, Value.phrases rest⟩
termination_by structural items => items

theorem Value.fieldPhrases : ∀ fields : List (Name × Value),
    ∀ ms ∈ Value.marksOfFields fields, Phrase ms
  | [] => List.forall_mem_nil _
  | (_, value) :: rest =>
    List.forall_mem_cons.mpr
      ⟨phrase_labelled (.leaf _) (Value.phrase value), Value.fieldPhrases rest⟩
termination_by structural fields => fields

end

theorem forall_phrase_map {α : Type} {marks : α → List Mark} (h : ∀ x, Phrase (marks x))
    (xs : List α) : ∀ ms ∈ xs.map marks, Phrase ms := by
  intro ms hms
  obtain ⟨x, -, rfl⟩ := List.mem_map.mp hms
  exact h x

theorem Argument.phrase (argument : Argument Value) : Phrase argument.marks :=
  phrase_labelled (.leaf _) argument.value.phrase

theorem Arguments.tail_marks (arguments : Arguments Value) : Tail arguments.marks := by
  obtain ⟨items⟩ := arguments
  cases items with
  | nil => exact tail_nil
  | cons argument rest =>
      exact tail_parenthesized (forall_phrase_map Argument.phrase _) (by simp)

theorem Directive.phrase (directive : Directive Value) : Phrase directive.marks := by
  have hname := Phrase.sigil (c := '@') (by simp) (.name directive.name)
  exact hname.tail directive.arguments.tail_marks

theorem Directive.tail_marksOfAll (directives : List (Directive Value)) :
    Tail (marksOfAll directives) :=
  tail_ledBySpaces (forall_phrase_map phrase directives)

theorem FragmentSpread.phrase (spread : FragmentSpread Value) : Phrase spread.marks := by
  have hname : Tail [space, leaf (.fragmentName spread.name)] := (Phrase.leaf _).led
  exact phrase_spread (hname.append (Directive.tail_marksOfAll spread.directives)) rfl

theorem Field.phrase_nameMarks (aliasName : Option Name) (name : Name) :
    Phrase (nameMarks aliasName name) := by
  cases aliasName with
  | none => exact .leaf _
  | some given => exact phrase_labelled (.leaf _) (.leaf _)

theorem InlineFragment.tail_conditionMarks (typeCondition : Option Name) :
    Tail (conditionMarks typeCondition) := by
  cases typeCondition with
  | none => exact tail_nil
  | some type =>
      have hon : Phrase [word "on"] := .word (by decide)
      exact hon.led.append (Phrase.leaf (.name type)).led

/-- A space stands after the three dots of an inline fragment, whatever parts are missing. -/
theorem InlineFragment.head?_marks (typeCondition : Option Name)
    (directives : List (Directive Value)) (set : List Mark) :
    (conditionMarks typeCondition ++ (Directive.marksOfAll directives ++ space :: set)).head? =
      some space := by
  cases typeCondition with
  | none => exact head?_ledBySpaces_append _ set
  | some type => rfl

mutual

theorem Field.phrase : ∀ field : Field Value, Phrase field.marks
  | ⟨aliasName, name, arguments, directives, set⟩ => by
    have hset : Tail (if set.isEmpty then [] else space :: set.marks) := by
      split
      · exact tail_nil
      · exact (SelectionSet.phrase set).led
    exact (Field.phrase_nameMarks aliasName name).tail (arguments.tail_marks.append
      ((Directive.tail_marksOfAll directives).append hset))
termination_by structural field => field

theorem InlineFragment.phrase : ∀ fragment : InlineFragment Value, Phrase fragment.marks
  | ⟨typeCondition, directives, set⟩ => by
    have hset : Tail (space :: set.marks) := (SelectionSet.phrase set).led
    exact phrase_spread ((InlineFragment.tail_conditionMarks typeCondition).append
      ((Directive.tail_marksOfAll directives).append hset))
      (InlineFragment.head?_marks typeCondition directives set.marks)
termination_by structural fragment => fragment

theorem Selection.phrase : ∀ selection : Selection Value, Phrase selection.marks
  | .field f => Field.phrase f
  | .spread s => s.phrase
  | .inlineFragment f => InlineFragment.phrase f
termination_by structural selection => selection

theorem SelectionSet.phrase : ∀ set : SelectionSet Value, Phrase set.marks
  | ⟨selections⟩ => phrase_block (SelectionSet.phrases selections)
termination_by structural set => set

theorem SelectionSet.phrases : ∀ selections : List (Selection Value),
    ∀ ms ∈ SelectionSet.marksOfAll selections, Phrase ms
  | [] => List.forall_mem_nil _
  | selection :: rest =>
    List.forall_mem_cons.mpr ⟨Selection.phrase selection, SelectionSet.phrases rest⟩
termination_by structural selections => selections

end

theorem tail_exclamation : Tail [punctuator '!'] := by
  intro rest hrest
  have hmark : Spaced (punctuator '!' :: rest) :=
    hrest.spaced_cons rfl (Or.inr ⟨'!', by simp, rfl⟩)
  exact hmark.continues_cons (Or.inr ⟨'!', by simp, rfl⟩)

mutual

theorem TypeReference.phrase : ∀ type : TypeReference, Phrase type.marks
  | .named _ => .leaf _
  | .list items => phrase_bracketed (Or.inl ⟨rfl, rfl⟩) (TypeReference.phrases items)
  | .nonNull inner => NonNullType.phrase inner
termination_by structural type => type

theorem NonNullType.phrase : ∀ type : NonNullType, Phrase type.marks
  | .named name => (Phrase.leaf (.name name)).tail tail_exclamation
  | .list items =>
    (phrase_bracketed (Or.inl ⟨rfl, rfl⟩) (TypeReference.phrases items)).tail tail_exclamation
termination_by structural type => type

theorem TypeReference.phrases : ∀ items : List TypeReference,
    ∀ ms ∈ TypeReference.marksOfAll items, Phrase ms
  | [] => List.forall_mem_nil _
  | item :: rest =>
    List.forall_mem_cons.mpr ⟨TypeReference.phrase item, TypeReference.phrases rest⟩
termination_by structural items => items

end

/-- A default value stands after an equals sign with a space on either side. -/
theorem VariableDefinition.tail_defaultMarks (defaultValue : Option Value) :
    Tail (defaultMarks defaultValue) := by
  cases defaultValue with
  | none => exact tail_nil
  | some value =>
      intro rest hrest
      have hvalue : Spaced (space :: (value.marks ++ rest)) :=
        value.phrase.spaced_cons hrest trivial fun _ => .space
      have hequals : Spaced (punctuator '=' :: space :: (value.marks ++ rest)) :=
        hvalue.cons rfl (by simpa using .separator (by simp))
      have hspace : Spaced (space :: punctuator '=' :: space :: (value.marks ++ rest)) :=
        hequals.cons trivial (by simpa using .beforeEquals)
      exact hspace.continues_cons (Or.inl rfl)

theorem VariableDefinition.phrase (definition : VariableDefinition Value) :
    Phrase definition.marks := by
  have hvar := Phrase.sigil (c := '$') (by simp) (.name definition.var.name)
  exact (phrase_labelled hvar definition.type.phrase).tail
    (tail_defaultMarks definition.defaultValue)

theorem Operation.tail_nameMarks (name? : Option Name) : Tail (nameMarks name?) := by
  cases name? with
  | none => exact tail_nil
  | some name => exact (Phrase.leaf (.name name)).led

theorem Operation.tail_variableMarks (definitions : List (VariableDefinition Value)) :
    Tail (variableMarks definitions) := by
  cases definitions with
  | nil => exact tail_nil
  | cons definition rest =>
      exact tail_parenthesized (forall_phrase_map VariableDefinition.phrase _)
        (by simp)

theorem OperationType.phrase_keyword (type : OperationType) : Phrase [word type.keyword] := by
  cases type with
  | query => exact .word (by decide)
  | mutation => exact .word (by decide)
  | subscription => exact .word (by decide)

theorem Operation.phrase (operation : Operation Value) : Phrase operation.marks :=
  operation.type.phrase_keyword.tail ((tail_nameMarks operation.writtenName?).append
    ((tail_variableMarks operation.variableDefinitions).append
      ((Directive.tail_marksOfAll operation.directives).append
        operation.selectionSet.phrase.led)))

theorem FragmentDefinition.phrase (definition : FragmentDefinition Value) :
    Phrase definition.marks := by
  have hkeyword : Phrase [word "fragment"] := .word (by decide)
  have hname : Tail [space, leaf (.fragmentName definition.name)] := (Phrase.leaf _).led
  have hon : Phrase [word "on"] := .word (by decide)
  have htype : Tail [space, leaf (.name definition.typeCondition)] := (Phrase.leaf _).led
  exact hkeyword.tail (hname.append (hon.led.append (htype.append
    ((Directive.tail_marksOfAll definition.directives).append
      definition.selectionSet.phrase.led))))

theorem Definition.phrase (definition : Definition Value) : Phrase definition.marks := by
  cases definition with
  | operation op => exact op.phrase
  | fragment frag => exact frag.phrase

/-- The marks of a document that is not empty are those of an item. -/
theorem Document.phrase {document : Document Value} (h : document.definitions ≠ []) :
    Phrase document.marks :=
  phrase_spaced (forall_phrase_map Definition.phrase _) (by simpa using h)

/-! ### Both ends of a node -/

namespace Mark

/-- Marks between spaces: a space may follow the last of them, and the first is no space. -/
structure Trimmed (marks : List Mark) : Prop where
  head : ∀ mark ∈ marks.head?, mark ≠ space
  spaced : Spaced (marks ++ [space])

theorem continues_space : Continues [space] := by
  have hspace : Spaced [space] := spaced_nil.cons trivial (by simp)
  exact hspace.continues_cons (Or.inl rfl)

theorem trimmed_nil : Trimmed [] :=
  ⟨by simp, continues_space.1⟩

theorem Opens.ne_space {mark : Mark} (h : mark.Opens) : mark ≠ space := by
  rintro rfl
  rcases h with hsolid | hspread | ⟨c, -, hc⟩
  · exact hsolid
  · cases hspread
  · cases hc

/-- An item starts with a mark that may follow a space, so with no space. -/
theorem Phrase.trimmed {marks : List Mark} (h : Phrase marks) : Trimmed marks := by
  constructor
  · intro mark hmark
    have hopens := h.head_opens [] mark (by rwa [List.append_nil])
    exact hopens.ne_space
  · exact h.spaced continues_space

/-- The marks of a trimmed sequence are proper. -/
theorem Trimmed.isProper {marks : List Mark} (h : Trimmed marks) :
    ∀ mark ∈ marks, mark.IsProper :=
  fun mark hmark => h.spaced.2 mark (List.mem_append_left _ hmark)

end Mark

/-- Arguments are an optional part, but start with a parenthesis if there are any. -/
theorem Arguments.trimmed (arguments : Arguments Value) : Trimmed arguments.marks := by
  constructor
  · obtain ⟨items⟩ := arguments
    cases items with
    | nil => simp [marks, isEmpty]
    | cons argument rest => simp [marks, isEmpty, bracketed]
  · exact (arguments.tail_marks continues_space).1

theorem Document.trimmed (document : Document Value) : Trimmed document.marks := by
  by_cases hempty : document.definitions = []
  · rw [marks, hempty]
    exact trimmed_nil
  · exact (Document.phrase hempty).trimmed

/-- The marks of a node are well spaced, and could stand between two spaces. -/
theorem Node.trimmed : ∀ node : Node, Trimmed node.marks
  | .name n => (Phrase.leaf (.name n)).trimmed
  | .fragmentName n => (Phrase.leaf (.fragmentName n)).trimmed
  | .enumValue v => (Phrase.leaf (.enumValue v)).trimmed
  | .variable v => (Phrase.sigil (by simp) (.name v.name)).trimmed
  | .value v => v.phrase.trimmed
  | .objectValue o => (phrase_bracketed (Or.inr ⟨rfl, rfl⟩) (Value.fieldPhrases o.fields)).trimmed
  | .argument a => a.phrase.trimmed
  | .arguments as => as.trimmed
  | .directive d => d.phrase.trimmed
  | .typeReference t => t.phrase.trimmed
  | .nonNullType t => t.phrase.trimmed
  | .variableDefinition d => d.phrase.trimmed
  | .field f => f.phrase.trimmed
  | .selection s => s.phrase.trimmed
  | .selectionSet s => s.phrase.trimmed
  | .fragmentSpread s => s.phrase.trimmed
  | .inlineFragment f => f.phrase.trimmed
  | .fragmentDefinition d => d.phrase.trimmed
  | .operationType t => t.phrase_keyword.trimmed
  | .operation o => o.phrase.trimmed
  | .definition d => d.phrase.trimmed
  | .document d => d.trimmed

end GraphQLText

import GraphQLText.Proofs.Printing.Layout
import GraphQLText.Proofs.Tree.Alike

/-!
# The marks of trees of one shape

Trees of one shape have the same marks, in the same order, but for the leaves and the contents of
strings.
-/

namespace GraphQLText

variable (R : Leaf → Leaf → Prop) (S : String → String → Prop)

/-- Marks that differ at most as leaves or as contents of a string. -/
inductive Mark.Alike : Mark → Mark → Prop
  | space : Mark.Alike .space .space
  | punctuator (c : Char) : Mark.Alike (.punctuator c) (.punctuator c)
  | spread : Mark.Alike .spread .spread
  | word (w : String) : Mark.Alike (.word w) (.word w)
  | int (n : Int64) : Mark.Alike (.int n) (.int n)
  | string {s t : String} : S s t → Mark.Alike (.string s) (.string t)
  | leaf {a b : Leaf} : R a b → Mark.Alike (.leaf a) (.leaf b)

/-- Sequences of marks that are alike one by one. -/
def Mark.AlikeAll (ms ns : List Mark) : Prop :=
  List.Forall₂ (Mark.Alike R S) ms ns

variable {R S}

namespace Mark.AlikeAll

/-! ### Joins -/

theorem nil : AlikeAll R S [] [] :=
  List.Forall₂.nil

theorem cons {m n : Mark} {ms ns : List Mark} (h : m.Alike R S n) (hs : AlikeAll R S ms ns) :
    AlikeAll R S (m :: ms) (n :: ns) :=
  List.Forall₂.cons h hs

theorem append {ms ms' ns ns' : List Mark} (h : AlikeAll R S ms ns)
    (h' : AlikeAll R S ms' ns') : AlikeAll R S (ms ++ ms') (ns ++ ns') :=
  List.rel_append h h'

variable {mss nss : List (List Mark)}

theorem ledBySpaces (h : List.Forall₂ (AlikeAll R S) mss nss) :
    AlikeAll R S (Mark.ledBySpaces mss) (Mark.ledBySpaces nss) :=
  List.rel_flatMap h fun _ _ hitem => cons .space hitem

theorem spaced (h : List.Forall₂ (AlikeAll R S) mss nss) :
    AlikeAll R S (Mark.spaced mss) (Mark.spaced nss) := by
  cases h with
  | nil => exact nil
  | cons hitem hrest => exact append hitem (ledBySpaces hrest)

theorem bracketed (c d : Char) (h : List.Forall₂ (AlikeAll R S) mss nss) :
    AlikeAll R S (Mark.bracketed c d mss) (Mark.bracketed c d nss) :=
  cons (.punctuator c) (append (spaced h) (cons (.punctuator d) nil))

theorem block (h : List.Forall₂ (AlikeAll R S) mss nss) :
    AlikeAll R S (Mark.block mss) (Mark.block nss) :=
  cons (.punctuator _) (append (ledBySpaces h) (cons .space (cons (.punctuator _) nil)))

theorem labelled {ms ms' ns ns' : List Mark} (h : AlikeAll R S ms ns)
    (h' : AlikeAll R S ms' ns') :
    AlikeAll R S (Mark.labelled ms ms') (Mark.labelled ns ns') :=
  append h (cons (.punctuator ':') (cons .space h'))

end Mark.AlikeAll

open Mark

theorem Name.Alike.marks {a b : Name} (h : a.Alike R b) :
    AlikeAll R S [leaf (.name a)] [leaf (.name b)] :=
  .cons (.leaf h) .nil

/-! ### Nodes -/

mutual

/-- Values of one shape have marks that are alike. -/
theorem Value.Alike.marks : ∀ {a b : Value}, a.Alike R S b → AlikeAll R S a.marks b.marks
  | _, _, .string h => .cons (.string h) .nil
  | _, _, .int n => .cons (.int n) .nil
  | _, _, .single h => .cons (.leaf h) .nil
  | _, _, .double h => .cons (.leaf h) .nil
  | _, _, .boolean _ => .cons (.word _) .nil
  | _, _, .null => .cons (.word _) .nil
  | _, _, .list h => .bracketed '[' ']' (Value.AlikeItems.marks h)
  | _, _, .map h => .bracketed '\x7b' '\x7d' (Value.AlikeFields.marks h)
  | _, _, .object h => .bracketed '\x7b' '\x7d' (Value.AlikeFields.marks h)
  | _, _, .variable h => .cons (.punctuator '$') (Name.Alike.marks h)
  | _, _, .enum h => .cons (.leaf h) .nil
termination_by structural _ _ h => h

theorem Value.AlikeItems.marks : ∀ {xs ys : List Value}, Value.AlikeItems R S xs ys →
    List.Forall₂ (AlikeAll R S) (Value.marksOfItems xs) (Value.marksOfItems ys)
  | _, _, .nil => .nil
  | _, _, .cons h hs => .cons (Value.Alike.marks h) (Value.AlikeItems.marks hs)
termination_by structural _ _ h => h

theorem Value.AlikeFields.marks : ∀ {xs ys : List (Name × Value)},
    Value.AlikeFields R S xs ys →
    List.Forall₂ (AlikeAll R S) (Value.marksOfFields xs) (Value.marksOfFields ys)
  | _, _, .nil => .nil
  | _, _, .cons hkey h hs =>
    .cons (.labelled hkey.marks (Value.Alike.marks h)) (Value.AlikeFields.marks hs)
termination_by structural _ _ h => h

end

theorem Argument.Alike.marks {a b : Argument Value} (h : a.Alike R S b) :
    AlikeAll R S a.marks b.marks :=
  .labelled h.name.marks h.value.marks

theorem forall₂_marks_map {α : Type} {A : α → α → Prop} {marks : α → List Mark} {xs ys : List α}
    (h : List.Forall₂ A xs ys) (hmarks : ∀ a b, A a b → AlikeAll R S (marks a) (marks b)) :
    List.Forall₂ (AlikeAll R S) (xs.map marks) (ys.map marks) :=
  List.rel_map hmarks h

theorem Arguments.Alike.marks {as bs : Arguments Value} (h : as.Alike R S bs) :
    AlikeAll R S as.marks bs.marks := by
  obtain ⟨xs⟩ := as
  obtain ⟨ys⟩ := bs
  have hmarks := forall₂_marks_map h fun _ _ => Argument.Alike.marks
  cases h with
  | nil => exact .nil
  | cons _ _ => exact .bracketed '(' ')' hmarks

theorem Directive.Alike.marks {a b : Directive Value} (h : a.Alike R S b) :
    Mark.AlikeAll R S a.marks b.marks :=
  .cons (.punctuator '@') (.cons (.leaf h.name) h.arguments.marks)

theorem Directive.AlikeAll.marks {as bs : List (Directive Value)}
    (h : Directive.AlikeAll R S as bs) :
    Mark.AlikeAll R S (Directive.marksOfAll as) (Directive.marksOfAll bs) :=
  .ledBySpaces (forall₂_marks_map h fun _ _ => Directive.Alike.marks)

theorem FragmentSpread.Alike.marks {a b : FragmentSpread Value} (h : a.Alike R S b) :
    AlikeAll R S a.marks b.marks :=
  .cons .spread (.cons .space (.cons (.leaf h.name) h.directives.marks))

theorem Field.alikeAll_nameMarks {alias₁ alias₂ : Option Name} {name₁ name₂ : Name}
    (halias : Name.AlikeOption R alias₁ alias₂) (hname : name₁.Alike R name₂) :
    AlikeAll R S (nameMarks alias₁ name₁) (nameMarks alias₂ name₂) := by
  cases halias with
  | none => exact hname.marks
  | some hgiven => exact .labelled (Name.Alike.marks hgiven) hname.marks

theorem InlineFragment.alikeAll_conditionMarks {condition₁ condition₂ : Option Name}
    (h : Name.AlikeOption R condition₁ condition₂) :
    AlikeAll R S (conditionMarks condition₁) (conditionMarks condition₂) := by
  cases h with
  | none => exact .nil
  | some htype =>
      exact .cons .space (.cons (.word "on") (.cons .space (Name.Alike.marks htype)))

theorem SelectionSet.Alike.isEmpty_eq {a b : SelectionSet Value} (h : a.Alike R S b) :
    a.isEmpty = b.isEmpty := by
  obtain ⟨hall⟩ := h
  cases hall with
  | nil => rfl
  | cons _ _ => rfl

mutual

theorem Field.Alike.marks : ∀ {a b : Field Value}, a.Alike R S b →
    AlikeAll R S a.marks b.marks
  | _, _, .mk halias hname harguments hdirectives hset => by
    refine .append (Field.alikeAll_nameMarks halias hname)
      (.append harguments.marks (.append hdirectives.marks ?_))
    rw [hset.isEmpty_eq]
    split
    · exact .nil
    · exact .cons .space (SelectionSet.Alike.marks hset)
termination_by structural _ _ h => h

theorem InlineFragment.Alike.marks : ∀ {a b : InlineFragment Value}, a.Alike R S b →
    AlikeAll R S a.marks b.marks
  | _, _, .mk hcondition hdirectives hset =>
    .cons .spread (.append (InlineFragment.alikeAll_conditionMarks hcondition)
      (.append hdirectives.marks (.cons .space (SelectionSet.Alike.marks hset))))
termination_by structural _ _ h => h

theorem Selection.Alike.marks : ∀ {a b : Selection Value}, a.Alike R S b →
    AlikeAll R S a.marks b.marks
  | _, _, .field h => Field.Alike.marks h
  | _, _, .spread h => h.marks
  | _, _, .inlineFragment h => InlineFragment.Alike.marks h
termination_by structural _ _ h => h

theorem SelectionSet.Alike.marks : ∀ {a b : SelectionSet Value}, a.Alike R S b →
    AlikeAll R S a.marks b.marks
  | _, _, .mk h => .block (SelectionSet.AlikeAll.marks h)
termination_by structural _ _ h => h

theorem SelectionSet.AlikeAll.marks : ∀ {xs ys : List (Selection Value)},
    SelectionSet.AlikeAll R S xs ys →
    List.Forall₂ (AlikeAll R S) (SelectionSet.marksOfAll xs) (SelectionSet.marksOfAll ys)
  | _, _, .nil => .nil
  | _, _, .cons h hs => .cons (Selection.Alike.marks h) (SelectionSet.AlikeAll.marks hs)
termination_by structural _ _ h => h

end

mutual

theorem TypeReference.Alike.marks : ∀ {a b : TypeReference}, a.Alike R b →
    AlikeAll R S a.marks b.marks
  | _, _, .named h => h.marks
  | _, _, .list h => .bracketed '[' ']' (TypeReference.AlikeAll.marks h)
  | _, _, .nonNull h => NonNullType.Alike.marks h
termination_by structural _ _ h => h

theorem NonNullType.Alike.marks : ∀ {a b : NonNullType}, a.Alike R b →
    AlikeAll R S a.marks b.marks
  | _, _, .named h => .cons (.leaf h) (.cons (.punctuator '!') .nil)
  | _, _, .list h =>
    .append (.bracketed '[' ']' (TypeReference.AlikeAll.marks h))
      (.cons (.punctuator '!') .nil)
termination_by structural _ _ h => h

theorem TypeReference.AlikeAll.marks : ∀ {xs ys : List TypeReference},
    TypeReference.AlikeAll R xs ys →
    List.Forall₂ (AlikeAll R S) (TypeReference.marksOfAll xs) (TypeReference.marksOfAll ys)
  | _, _, .nil => .nil
  | _, _, .cons h hs => .cons (TypeReference.Alike.marks h) (TypeReference.AlikeAll.marks hs)
termination_by structural _ _ h => h

end

theorem VariableDefinition.alikeAll_defaultMarks {value₁ value₂ : Option Value}
    (h : Option.Rel (Value.Alike R S) value₁ value₂) :
    AlikeAll R S (defaultMarks value₁) (defaultMarks value₂) := by
  cases h with
  | none => exact .nil
  | some hvalue => exact .cons .space (.cons (.punctuator '=') (.cons .space hvalue.marks))

theorem VariableDefinition.Alike.marks {a b : VariableDefinition Value} (h : a.Alike R S b) :
    AlikeAll R S a.marks b.marks :=
  .append (.labelled (.cons (.punctuator '$') h.var.marks) h.type.marks)
    (alikeAll_defaultMarks h.defaultValue)

theorem Operation.alikeAll_nameMarks {a b : Operation Value} (h : NameAlike R a.name b.name) :
    AlikeAll R S (nameMarks a.writtenName?) (nameMarks b.writtenName?) := by
  unfold writtenName?
  generalize a.name = name₁, b.name = name₂ at h
  cases h with
  | none => exact .nil
  | empty hempty =>
      simp only [Option.filter, hempty]
      exact .nil
  | some ha hb halike =>
      rw [Option.filter_some_pos (by simpa using ha), Option.filter_some_pos (by simpa using hb)]
      exact .cons .space halike.marks

theorem Operation.alikeAll_variableMarks {xs ys : List (VariableDefinition Value)}
    (h : List.Forall₂ (VariableDefinition.Alike R S) xs ys) :
    AlikeAll R S (variableMarks xs) (variableMarks ys) := by
  have hmarks := forall₂_marks_map h fun _ _ => VariableDefinition.Alike.marks
  cases h with
  | nil => exact .nil
  | cons _ _ => exact .bracketed '(' ')' hmarks

theorem Operation.Alike.marks {a b : Operation Value} (h : a.Alike R S b) :
    AlikeAll R S a.marks b.marks := by
  unfold Operation.marks
  rw [h.type]
  exact .cons (.word _) (.append (alikeAll_nameMarks h.name)
    (.append (alikeAll_variableMarks h.variableDefinitions)
      (.append h.directives.marks (.cons .space h.selectionSet.marks))))

theorem FragmentDefinition.Alike.marks {a b : FragmentDefinition Value} (h : a.Alike R S b) :
    AlikeAll R S a.marks b.marks := by
  have hbody : AlikeAll R S
      (Directive.marksOfAll a.directives ++ space :: a.selectionSet.marks)
      (Directive.marksOfAll b.directives ++ space :: b.selectionSet.marks) :=
    .append h.directives.marks (.cons .space h.selectionSet.marks)
  exact .cons (.word "fragment") (.cons .space (.cons (.leaf h.name) (.cons .space
    (.cons (.word "on") (.cons .space (.cons (.leaf h.typeCondition) hbody))))))

theorem Definition.Alike.marks {a b : Definition Value} (h : a.Alike R S b) :
    AlikeAll R S a.marks b.marks := by
  cases h with
  | operation hop => exact hop.marks
  | fragment hfrag => exact hfrag.marks

theorem Document.Alike.marks {a b : Document Value} (h : a.Alike R S b) :
    AlikeAll R S a.marks b.marks :=
  .spaced (forall₂_marks_map h fun _ _ => Definition.Alike.marks)

/-- Nodes of one shape have marks that are alike. -/
theorem Node.Alike.marks : ∀ {a b : Node}, a.Alike R S b → AlikeAll R S a.marks b.marks
  | _, _, .name h => h.marks
  | _, _, .fragmentName h => .cons (.leaf h) .nil
  | _, _, .enumValue h => .cons (.leaf h) .nil
  | _, _, .variable h => .cons (.punctuator '$') h.marks
  | _, _, .value h => h.marks
  | _, _, .objectValue h => .bracketed '\x7b' '\x7d' h.marks
  | _, _, .argument h => h.marks
  | _, _, .arguments h => h.marks
  | _, _, .directive h => h.marks
  | _, _, .typeReference h => h.marks
  | _, _, .nonNullType h => h.marks
  | _, _, .variableDefinition h => h.marks
  | _, _, .field h => h.marks
  | _, _, .selection h => h.marks
  | _, _, .selectionSet h => h.marks
  | _, _, .fragmentSpread h => h.marks
  | _, _, .inlineFragment h => h.marks
  | _, _, .fragmentDefinition h => h.marks
  | _, _, .operationType type => .cons (.word type.keyword) .nil
  | _, _, .operation h => h.marks
  | _, _, .definition h => h.marks
  | _, _, .document h => h.marks

/-- Documents of one shape have equally many definitions. -/
theorem Document.Alike.definitions_eq_nil_iff {a b : Document Value} (h : a.Alike R S b) :
    a = ⟨[]⟩ ↔ b = ⟨[]⟩ := by
  have hlength := List.Forall₂.length_eq h
  obtain ⟨xs⟩ := a
  obtain ⟨ys⟩ := b
  rw [Document.mk.injEq, Document.mk.injEq, ← List.length_eq_zero_iff, ← List.length_eq_zero_iff,
    hlength]

/-- Of two nodes of one shape, neither or both are a document without definitions. -/
theorem Node.Alike.isEmptyDocument_iff {a b : Node} (h : a.Alike R S b) :
    a.IsEmptyDocument ↔ b.IsEmptyDocument := by
  unfold IsEmptyDocument
  cases h with
  | document hdocument =>
      rw [Node.document.injEq, Node.document.injEq]
      exact hdocument.definitions_eq_nil_iff
  | _ => exact ⟨nofun, nofun⟩

end GraphQLText

import GraphQLText.Lexical.Lexer
import GraphQLText.Proofs.Lexical.NumeralSyntax
import GraphQLText.Proofs.Lexical.StringDecoding
import GraphQLText.Proofs.Printing.Spacing

/-!
# The tokens of a text

Each mark other than a space is one token.  A solid mark is followed by a space, by a punctuator or
by nothing, where every token has ended, so well spaced marks are taken one by one and no two of
them fuse.
-/

namespace GraphQLText

/-- The token that a leaf is written as. -/
def Leaf.token : Leaf → Token
  | name n => .name n.text
  | fragmentName n => .name n.name.text
  | enumValue v => .name v.name.text
  | number x => .float (String.ofList (Numeral.ofBinary x))

namespace Mark

/-- The token of a mark.  Spaces mean nothing. -/
def token? : Mark → Option Token
  | space => none
  | punctuator c => some (.punctuator c)
  | spread => some .spread
  | word w => some (.name w)
  | int n => some (.int (String.ofList (Numeral.ofInt n.toInt)))
  | string s => some (.string s)
  | leaf l => some l.token

/-- The tokens of a sequence of marks. -/
def tokens (marks : List Mark) : List Token :=
  marks.filterMap token?

end Mark

namespace Token

/-! ### One token at a time -/

theorem lex_cons {c : Char} {cs rest : List Char} {token? : Option Token}
    (h : next c cs = some (token?, rest)) :
    lex (c :: cs) = (lex rest).map (token?.toList ++ ·) := by
  rw [lex]
  split
  · next hnone =>
      rw [h] at hnone
      cases hnone
  · next t r hsome =>
      rw [h, Option.some.injEq, Prod.mk.injEq] at hsome
      obtain ⟨rfl, rfl⟩ := hsome
      rfl

theorem next_punctuator {c : Char} (h : isPunctuator c = true) (cs : List Char) :
    next c cs = some (some (.punctuator c), cs) := by
  have hc : isIgnored c = false ∧ c ≠ '#' := by
    simp only [isPunctuator, List.contains_cons, List.contains_nil, Bool.or_false,
      Bool.or_eq_true, beq_iff_eq] at h
    rcases h with rfl | rfl | rfl | rfl | rfl | rfl | rfl | rfl | rfl | rfl | rfl | rfl <;> decide
  simp [next, hc.1, hc.2, h]

theorem next_name {c : Char} {cs rest : List Char} (h : IsName (c :: cs))
    (hrest : AtBoundary rest) :
    next c (cs ++ rest) = some (some (.name (String.ofList (c :: cs))), rest) := by
  have hstart : ∀ c : Char, c.toNat < 128 → isNameStart c = true →
      isIgnored c = false ∧ c ≠ '#' ∧ isPunctuator c = false :=
    Name.forall_ascii (by decide)
  obtain ⟨hignored, hcomment, hpunctuator⟩ :=
    hstart c (Name.toNat_lt_of_isNameContinue (Name.isNameContinue_of_isNameStart h.1)) h.1
  have htake := takeWhile_append_of_stop h.2 hrest.isNameContinue_eq_false
  have hdrop := dropWhile_append_of_stop h.2 hrest.isNameContinue_eq_false
  simp [next, hignored, hcomment, hpunctuator, h.1, htake, hdrop]

theorem next_number {c : Char} (h : c.isDigit = true ∨ c = '-') (cs : List Char) :
    next c cs = (takeNumber (c :: cs)).map fun (number, rest) => (some number, rest) := by
  have hstart : ∀ c : Char, c.toNat < 128 → c.isDigit = true →
      isIgnored c = false ∧ c ≠ '#' ∧ isPunctuator c = false ∧ isNameStart c = false ∧
        c ≠ '.' ∧ c ≠ '"' :=
    Name.forall_ascii (by decide)
  have hc : isIgnored c = false ∧ c ≠ '#' ∧ isPunctuator c = false ∧ isNameStart c = false ∧
      c ≠ '.' ∧ c ≠ '"' := by
    rcases h with h | rfl
    · exact hstart c (Name.toNat_lt_of_isNameContinue (isNameContinue_of_isDigit h)) h
    · decide
  simp [next, hc]

theorem next_int {c : Char} {cs rest : List Char} (h : IsIntValue (c :: cs))
    (hrest : AtBoundary rest) :
    next c (cs ++ rest) = some (some (.int (String.ofList (c :: cs))), rest) := by
  obtain ⟨d, ds, heq, hd⟩ := h.exists_cons
  obtain ⟨rfl, rfl⟩ := List.cons.inj heq
  rw [next_number hd, ← List.cons_append, takeNumber_of_isIntValue h hrest, Option.map_some]

theorem next_float {c : Char} {cs rest : List Char} (h : IsFloatValue (c :: cs))
    (hrest : AtBoundary rest) :
    next c (cs ++ rest) = some (some (.float (String.ofList (c :: cs))), rest) := by
  obtain ⟨d, ds, heq, hd⟩ := h.exists_cons
  obtain ⟨rfl, rfl⟩ := List.cons.inj heq
  rw [next_number hd, ← List.cons_append, takeNumber_of_isFloatValue h hrest, Option.map_some]

end Token

/-! ### One mark at a time -/

open Token

/-- The token of an acceptable leaf is the name or the float that its characters spell. -/
theorem Leaf.token_eq {leaf : Leaf} (h : leaf.IsAcceptable) :
    IsName leaf.text ∧ leaf.token = .name (String.ofList leaf.text) ∨
      IsFloatValue leaf.text ∧ leaf.token = .float (String.ofList leaf.text) := by
  cases leaf with
  | number x => exact Or.inr ⟨Numeral.isFloatValue_ofBinary x, rfl⟩
  | _ =>
      have hname := Leaf.isName_text h (by simp)
      exact Or.inl ⟨hname, by rw [token, text, String.ofList_toList]⟩

namespace Mark

theorem lex_name {cs rest : List Char} (h : IsName cs) (hrest : AtBoundary rest) :
    lex (cs ++ rest) = (lex rest).map (.name (String.ofList cs) :: ·) := by
  cases cs with
  | nil => exact h.elim
  | cons c cs => exact lex_cons (next_name h hrest)

theorem lex_int {cs rest : List Char} (h : IsIntValue cs) (hrest : AtBoundary rest) :
    lex (cs ++ rest) = (lex rest).map (.int (String.ofList cs) :: ·) := by
  obtain ⟨c, ds, rfl, -⟩ := h.exists_cons
  exact lex_cons (next_int h hrest)

theorem lex_float {cs rest : List Char} (h : IsFloatValue cs) (hrest : AtBoundary rest) :
    lex (cs ++ rest) = (lex rest).map (.float (String.ofList cs) :: ·) := by
  obtain ⟨c, ds, rfl, -⟩ := h.exists_cons
  exact lex_cons (next_float h hrest)

/-- The token of a mark is taken off the front of a text, if a solid mark ends at a boundary. -/
theorem lex_text_append {mark : Mark} {rest : List Char} (hfault : mark.fault? = none)
    (hproper : mark.IsProper) (hrest : mark.IsSolid → AtBoundary rest) :
    lex (mark.text ++ rest) = (lex rest).map (mark.token?.toList ++ ·) := by
  cases mark with
  | space => exact lex_cons rfl
  | punctuator c => exact lex_cons (next_punctuator hproper rest)
  | spread => exact lex_cons rfl
  | word w =>
      have hlex := lex_name hproper (hrest trivial)
      rwa [String.ofList_toList] at hlex
  | int n => exact lex_int (Numeral.isIntValue_ofInt _) (hrest trivial)
  | string s =>
      have hquote : s = "" → rest.head? ≠ some '"' := by
        intro _ hhead
        exact (not_isNameContinue_of_boundary (hrest trivial '"' hhead)).2.2 rfl
      have hlex := lex_cons (StringLiteral.next_ofString hquote)
      rw [text, StringLiteral.ofString, List.cons_append, List.append_assoc]
      exact hlex
  | leaf l =>
      rcases Leaf.token_eq hfault with ⟨hname, htoken⟩ | ⟨hfloat, htoken⟩
      · rw [text, token?, htoken]
        exact lex_name hname (hrest trivial)
      · rw [text, token?, htoken]
        exact lex_float hfloat (hrest trivial)

/-! ### Sequences of marks -/

/-- What follows a solid mark starts with a space or a punctuator. -/
theorem Precedes.follows {m n : Mark} (h : m.Precedes n) (hsolid : m.IsSolid) : n.Follows := by
  cases h with
  | item _ hfollows => exact hfollows
  | _ => exact hsolid.elim

theorem Follows.atBoundary {mark : Mark} (h : mark.Follows) (hproper : mark.IsProper)
    (rest : List Char) : AtBoundary (mark.text ++ rest) := by
  rcases h with rfl | ⟨c, -, rfl⟩
  · exact atBoundary_cons (Or.inr rfl)
  · exact atBoundary_cons (Or.inl hproper)

/-- The characters of well spaced marks without a fault are split into their tokens. -/
theorem lex_flatMap_text {marks : List Mark} (hspaced : Spaced marks)
    (hfault : firstFault? marks = none) :
    lex (marks.flatMap text) = some (tokens marks) := by
  obtain ⟨hchain, hproper⟩ := hspaced
  induction marks with
  | nil => rw [List.flatMap_nil, lex]; rfl
  | cons mark rest ih =>
      rw [firstFault?_cons, Option.or_eq_none_iff] at hfault
      have hboundary : mark.IsSolid → AtBoundary (rest.flatMap text) := by
        intro hsolid
        cases rest with
        | nil => exact atBoundary_nil
        | cons next rest =>
            have hprecedes : mark.Precedes next := hchain.rel_head? (by simp)
            exact (hprecedes.follows hsolid).atBoundary (hproper next (by simp)) _
      rw [List.flatMap_cons,
        lex_text_append hfault.1 (hproper mark (by simp)) hboundary,
        ih hfault.2 hchain.tail fun m hm => hproper m (List.mem_cons_of_mem _ hm),
        Option.map_some]
      cases htoken : mark.token? with
      | none => simp [tokens, htoken]
      | some t => simp [tokens, htoken]

end Mark

end GraphQLText

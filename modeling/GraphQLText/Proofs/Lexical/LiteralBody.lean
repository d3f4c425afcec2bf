import GraphQLText.Proofs.Lexical.Outside
import GraphQLText.Proofs.Lexical.StringDecoding

/-!
# The body of a string literal

The grammar spells a string character by character: a plain character stands for itself, and the
others are escaped by one letter or by four hexadecimal digits.  The body of a written literal is
spelled so, and a character is escaped only if it has to be.  The literal is one token, and reading
it leaves what follows untouched.
-/

namespace GraphQLText.StringLiteral

open Token

/-- The characters that do not stand for themselves inside a literal. -/
def IsSpecial (c : Char) : Prop :=
  c = '"' ∨ c = '\\' ∨ isControl c = true

/-- How the grammar spells the contents of a literal, if only special characters are escaped. -/
inductive IsBody : List Char → List Char → Prop
  | nil : IsBody [] []
  | plain {c : Char} {contents text : List Char} :
      ¬ IsSpecial c → IsBody contents text → IsBody (c :: contents) (c :: text)
  | letter {c d : Char} {contents text : List Char} :
      IsSpecial c → escapedChar? d = some c → IsBody contents text →
        IsBody (c :: contents) ('\\' :: d :: text)
  | code {c w x y z : Char} {contents text : List Char} :
      IsSpecial c → codedChar? w x y z = some c → IsBody contents text →
        IsBody (c :: contents) ('\\' :: 'u' :: w :: x :: y :: z :: text)

/-- A character is spelled as the grammar wants it, in front of any body. -/
theorem IsBody.escape {contents text : List Char} (h : IsBody contents text) (c : Char) :
    IsBody (c :: contents) (escape c ++ text) := by
  unfold StringLiteral.escape
  split
  case h_1 => exact .letter (Or.inl rfl) rfl h
  case h_2 => exact .letter (Or.inr (Or.inl rfl)) rfl h
  case h_8 hquote hslash _ _ _ _ _ =>
    split
    · next hcontrol =>
        exact .code (Or.inr (Or.inr hcontrol)) (codedChar?_of_isControl hcontrol) h
    · next hplain => exact .plain (fun hspecial =>
          hspecial.elim hquote (Or.elim · hslash hplain)) h
  -- Line breaks, tabs, backspaces and form feeds are control characters.
  all_goals exact .letter (Or.inr (Or.inr (by decide))) rfl h

theorem isBody_body (contents : List Char) : IsBody contents (body contents) := by
  induction contents with
  | nil => exact .nil
  | cons c contents ih =>
      rw [body, List.flatMap_cons]
      exact ih.escape c

/-- A quote in the body stands right after a backslash that protects it: a scan of the body from
inside of the literal keeps nothing, so it would not come upon an unprotected quote. -/
theorem after_eq_escaped_of_body_eq {contents before after : List Char}
    (h : body contents = before ++ '"' :: after) :
    Place.inside.after before = .escaped := by
  have hstrip := (inside_body contents).2
  rw [h, Place.strip_append, List.append_eq_nil_iff] at hstrip
  cases hplace : Place.inside.after before with
  | escaped => rfl
  | outside => simp [hplace, Place.strip, Place.keeps] at hstrip
  | inside => simp [hplace, Place.strip, Place.keeps] at hstrip

/-- A hexadecimal digit is neither a quote nor a backslash, so a scan passes it inside a literal. -/
theorem inside_next_of_hexValue? {c : Char} {n : Nat} (h : hexValue? c = some n) :
    c ≠ '\\' ∧ Place.inside.next c = .inside := by
  have hnone : hexValue? '"' = none ∧ hexValue? '\\' = none := by decide
  have hquote : c ≠ '"' := by
    rintro rfl
    rw [hnone.1] at h
    cases h
  have hslash : c ≠ '\\' := by
    rintro rfl
    rw [hnone.2] at h
    cases h
  exact ⟨hslash, (inside_of_plain hquote hslash).1⟩

theorem exists_hexValue?_of_codedChar? {w x y z c : Char} (h : codedChar? w x y z = some c) :
    (∃ n, hexValue? w = some n) ∧ (∃ n, hexValue? x = some n) ∧ (∃ n, hexValue? y = some n) ∧
      ∃ n, hexValue? z = some n := by
  simp only [codedChar?, Option.bind_eq_bind, Option.bind_eq_some_iff] at h
  obtain ⟨i, hw, j, hx, k, hy, l, hz, -⟩ := h
  exact ⟨⟨i, hw⟩, ⟨j, hx⟩, ⟨k, hy⟩, ⟨l, hz⟩⟩

/-- What may follow a backslash that is not protected itself is the escape of a special character:
one letter, or the letter `u` and four hexadecimal digits. -/
def IsEscapeOf (c : Char) (after : List Char) : Prop :=
  IsSpecial c ∧
    ((∃ d rest, after = d :: rest ∧ escapedChar? d = some c) ∨
      ∃ w x y z rest, after = 'u' :: w :: x :: y :: z :: rest ∧ codedChar? w x y z = some c)

theorem IsBody.exists_isEscapeOf {contents text : List Char} (h : IsBody contents text) :
    ∀ {before after : List Char}, text = before ++ '\\' :: after →
      Place.inside.after before = .inside → ∃ c ∈ contents, IsEscapeOf c after := by
  have hslash : Place.inside.next '\\' = .escaped := rfl
  have hmore {c : Char} {cs after : List Char} :
      (∃ d ∈ cs, IsEscapeOf d after) → ∃ d ∈ c :: cs, IsEscapeOf d after :=
    fun ⟨d, hd, hescape⟩ => ⟨d, List.mem_cons_of_mem c hd, hescape⟩
  induction h with
  | nil =>
      intro before after htext
      simp at htext
  | @plain c contents text hplain _ ih =>
      intro before after htext hplace
      simp only [IsSpecial, not_or] at hplain
      cases before with
      | nil => exact absurd (List.cons.inj htext).1 hplain.2.1
      | cons b before =>
          rw [List.cons_append, List.cons.injEq] at htext
          obtain ⟨rfl, htext⟩ := htext
          rw [Place.after_cons, (inside_of_plain hplain.1 hplain.2.1).1] at hplace
          exact hmore (ih htext hplace)
  | @letter c d contents text hspecial hd _ ih =>
      intro before after htext hplace
      match before with
      | [] =>
          exact ⟨c, List.mem_cons_self, hspecial,
            Or.inl ⟨d, text, (List.cons.inj htext).2.symm, hd⟩⟩
      | [b] =>
          obtain ⟨rfl, -⟩ := List.cons.inj htext
          cases hplace
      | b :: e :: before =>
          simp only [List.cons_append, List.cons.injEq] at htext
          obtain ⟨rfl, rfl, htext⟩ := htext
          rw [Place.after_cons, hslash] at hplace
          exact hmore (ih htext hplace)
  | @code c w x y z contents text hspecial hcode _ ih =>
      intro before after htext hplace
      obtain ⟨⟨_, hw⟩, ⟨_, hx⟩, ⟨_, hy⟩, ⟨_, hz⟩⟩ := exists_hexValue?_of_codedChar? hcode
      obtain ⟨hw, hw'⟩ := inside_next_of_hexValue? hw
      obtain ⟨hx, hx'⟩ := inside_next_of_hexValue? hx
      obtain ⟨hy, hy'⟩ := inside_next_of_hexValue? hy
      obtain ⟨hz, hz'⟩ := inside_next_of_hexValue? hz
      have hletter : Place.escaped.next 'u' = .inside := rfl
      -- None of the characters after the first of an escape is a backslash.
      match before with
      | [] =>
          exact ⟨c, List.mem_cons_self, hspecial,
            Or.inr ⟨w, x, y, z, text, (List.cons.inj htext).2.symm, hcode⟩⟩
      | [_] | [_, _] | [_, _, _] | [_, _, _, _] | [_, _, _, _, _] => simp_all
      | a :: b :: c :: d :: e :: f :: before =>
          simp only [List.cons_append, List.cons.injEq] at htext
          obtain ⟨rfl, rfl, rfl, rfl, rfl, rfl, htext⟩ := htext
          simp only [Place.after_cons, hslash, hletter, hw', hx', hy', hz'] at hplace
          exact hmore (ih htext hplace)

/-- Three quotes open a block string. -/
theorem next_quotes_ne (cs rest : List Char) (contents : String) :
    next '"' ('"' :: '"' :: cs) ≠ some (some (.string contents), rest) := by
  have hnext : next '"' ('"' :: '"' :: cs) =
      (takeBlockString cs).map fun p => (some (.blockString (String.ofList p.1)), p.2) := rfl
  rw [hnext]
  simp

/-- A literal is one token that holds the string, and what follows is left as it is, unless an empty
literal is followed by a quote.  Its body is spelled by the grammar and has no control character in
it, no quote without a backslash that protects it, and no other escapes than those of the string's
special characters. -/
theorem next_and_isBody (s : String) :
    ∃ text, ofString s = '"' :: (text ++ ['"']) ∧
      (∀ rest, next '"' (text ++ '"' :: rest) = some (some (.string s), rest) ↔
        ¬ (s = "" ∧ rest.head? = some '"')) ∧
      IsBody s.toList text ∧
      (∀ c ∈ text, isControl c = false ∧ isLineEnd c = false) ∧
      (∀ before after, text = before ++ '"' :: after →
        Place.inside.after before = .escaped) ∧
      ∀ before after, text = before ++ '\\' :: after → Place.inside.after before = .inside →
        ∃ c ∈ s.toList, IsEscapeOf c after := by
  have hbody := isBody_body s.toList
  refine ⟨body s.toList, rfl, ?_, hbody, ?_, fun _ _ => after_eq_escaped_of_body_eq,
    fun _ _ => hbody.exists_isEscapeOf⟩
  · intro rest
    constructor
    · rintro hnext ⟨rfl, hrest⟩
      obtain ⟨rest, rfl⟩ := List.head?_eq_some_iff.mp hrest
      exact next_quotes_ne rest _ "" hnext
    · intro h
      exact next_ofString fun hs hrest => h ⟨hs, hrest⟩
  · intro c hc
    have hcontrol : isControl c = false :=
      isControl_of_mem_ofString (s := s)
        (List.mem_cons_of_mem _ (List.mem_append_left _ hc))
    exact ⟨hcontrol, isLineEnd_of_isControl_eq_false hcontrol⟩

end GraphQLText.StringLiteral

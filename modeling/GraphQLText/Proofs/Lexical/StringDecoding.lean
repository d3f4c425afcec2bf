import GraphQLText.Lexical.StringLiteral
import GraphQLText.Lexical.Token

/-!
# Decoding string literals

A literal is read back as the string it was written for, and reading stops right after its closing
quote.  This is shown one character at a time: each escape is taken as a whole, whatever follows.
-/

namespace GraphQLText.StringLiteral

open Token

theorem hexValue?_digitChar {n : Nat} (h : n < 16) :
    hexValue? n.digitChar = some n := by
  have hall : ∀ k, k < 16 → hexValue? k.digitChar = some k := by decide
  exact hall n h

theorem lt_of_isControl {c : Char} (h : isControl c = true) :
    c.toNat < 0xa0 := by
  simp only [isControl, Bool.or_eq_true, Bool.and_eq_true,
    decide_eq_true_eq] at h
  omega

/-- Four hexadecimal digits are enough for a control character. -/
theorem codedChar?_of_isControl {c : Char} (h : isControl c = true) :
    codedChar? (c.toNat / 0x1000 % 16).digitChar (c.toNat / 0x100 % 16).digitChar
      (c.toNat / 0x10 % 16).digitChar (c.toNat % 16).digitChar = some c := by
  have hc := lt_of_isControl h
  have hcode : c.toNat / 0x1000 % 16 * 0x1000 + c.toNat / 0x100 % 16 * 0x100 +
      c.toNat / 0x10 % 16 * 0x10 + c.toNat % 16 = c.toNat := by
    omega
  have hdigit (n : Nat) : hexValue? (n % 16).digitChar = some (n % 16) :=
    hexValue?_digitChar (Nat.mod_lt n (by decide))
  have hvalid : c.toNat.isValidChar := c.valid
  simp only [codedChar?, hdigit, Option.bind_eq_bind, Option.bind_some, hcode,
    if_pos hvalid, Char.ofNat_toNat]

theorem isLineEnd_of_isControl_eq_false {c : Char} (h : isControl c = false) :
    isLineEnd c = false := by
  simp only [isLineEnd, Bool.or_eq_false_iff, beq_eq_false_iff_ne]
  constructor
  · rintro rfl
    exact absurd h (by decide)
  · rintro rfl
    exact absurd h (by decide)

/-- A character that is not escaped stands for itself. -/
theorem takeString_plain {c : Char} (hquote : c ≠ '"') (hslash : c ≠ '\\')
    (hplain : isControl c = false) (cs : List Char) :
    takeString (c :: cs) =
      (takeString cs).map fun (contents, rest) => (c :: contents, rest) := by
  have hcode : 0x20 ≤ c.toNat := by
    simp only [isControl, Bool.or_eq_false_iff, decide_eq_false_iff_not] at hplain
    omega
  have hsource : isSource c = true := by
    simp [isSource, hcode]
  have hline := isLineEnd_of_isControl_eq_false hplain
  rw [takeString]
  · simp [hsource, hline, hslash]
  · exact hquote
  · intro a b c d cs h
    exact absurd h hslash
  · intro d cs h
    exact absurd h hslash

/-- Reading takes the escape of a character as that character. -/
theorem takeString_escape (c : Char) (cs : List Char) :
    takeString (escape c ++ cs) =
      (takeString cs).map fun (contents, rest) => (c :: contents, rest) := by
  unfold escape
  split
  case h_8 hquote hslash _ _ _ _ _ =>
    split
    · next hcontrol =>
        simp only [hexDigits, List.map_cons, List.map_nil, List.cons_append,
          List.nil_append, takeString, codedChar?_of_isControl hcontrol]
        rfl
    · next hplain =>
        exact takeString_plain hquote hslash (Bool.eq_false_iff.mpr hplain) cs
  all_goals simp [takeString, escapedChar?]

/-- Reading a literal after its opening quote gives the string and what follows the literal. -/
theorem takeString_body (contents rest : List Char) :
    takeString (body contents ++ '"' :: rest) = some (contents, rest) := by
  induction contents with
  | nil => rfl
  | cons c cs ih =>
      rw [body, List.flatMap_cons, List.append_assoc, takeString_escape]
      rw [← body, ih]
      rfl

/-- What stands for a character inside a literal does not start with a quote. -/
theorem escape_eq_cons (c : Char) :
    ∃ d ds, escape c = d :: ds ∧ d ≠ '"' := by
  unfold escape
  split
  case h_8 hquote _ _ _ _ _ _ =>
    split
    · exact ⟨_, _, rfl, by decide⟩
    · exact ⟨_, _, rfl, hquote⟩
  all_goals exact ⟨_, _, rfl, by decide⟩

/-- Only an empty literal before a quote could be taken for the start of a block string. -/
theorem body_append_ne_quotes {s : String} {rest : List Char}
    (h : s = "" → rest.head? ≠ some '"') (cs : List Char) :
    body s.toList ++ '"' :: rest ≠ '"' :: '"' :: cs := by
  intro hcs
  cases hs : s.toList with
  | nil =>
      rw [hs] at hcs
      have hrest : rest = '"' :: cs := (List.cons.inj hcs).2
      exact h (String.toList_eq_nil_iff.mp hs) (by rw [hrest, List.head?_cons])
  | cons c cs' =>
      obtain ⟨d, ds, hescape, hd⟩ := escape_eq_cons c
      rw [hs, body, List.flatMap_cons, hescape] at hcs
      exact hd (List.cons.inj hcs).1

/-- A literal is one token, unless it is empty and followed by a quote, when the three quotes would
open a block string. -/
theorem next_ofString {s : String} {rest : List Char}
    (h : s = "" → rest.head? ≠ some '"') :
    next '"' (body s.toList ++ '"' :: rest) = some (some (.string s), rest) := by
  have hnext : next '"' (body s.toList ++ '"' :: rest) =
      (takeString (body s.toList ++ '"' :: rest)).map fun (contents, rest) =>
        (some (.string (String.ofList contents)), rest) := by
    have hopen := body_append_ne_quotes h
    generalize body s.toList ++ '"' :: rest = cs at hopen
    have hignored : isIgnored '"' = false := by decide
    have hpunctuator : isPunctuator '"' = false := by decide
    have hstart : isNameStart '"' = false := by decide
    simp only [next, hignored, hpunctuator, hstart, Bool.false_eq_true,
      Char.reduceEq, if_false, if_true]
  rw [hnext, takeString_body, Option.map_some]
  simp only [String.ofList_toList]

/-! ### The characters of a literal -/

theorem isControl_digitChar {n : Nat} (h : n < 16) : isControl n.digitChar = false := by
  have hall : ∀ k, k < 16 → isControl k.digitChar = false := by decide
  exact hall n h

/-- A control character is escaped without writing one. -/
theorem isControl_of_mem_escape (c : Char) : ∀ d ∈ escape c, isControl d = false := by
  unfold escape
  split
  case h_8 =>
    split
    · have hdigit (n : Nat) := isControl_digitChar (Nat.mod_lt n (by decide : 0 < 16))
      have hslash : isControl '\\' = false := by decide
      have hletter : isControl 'u' = false := by decide
      simp [hexDigits, hdigit, hslash, hletter]
    · next hplain =>
        intro d hd
        rw [List.mem_singleton.mp hd]
        exact Bool.eq_false_iff.mpr hplain
  all_goals simp [isControl]

/-- A literal has no control character in it, whatever its string holds. -/
theorem isControl_of_mem_ofString {s : String} {c : Char} (h : c ∈ ofString s) :
    isControl c = false := by
  rw [ofString, List.mem_cons, List.mem_append, List.mem_singleton, body, List.mem_flatMap] at h
  rcases h with rfl | ⟨d, -, hd⟩ | rfl
  · decide
  · exact isControl_of_mem_escape d c hd
  · decide

end GraphQLText.StringLiteral

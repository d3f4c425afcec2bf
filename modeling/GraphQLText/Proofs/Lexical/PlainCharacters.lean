import GraphQLText.Lexical.StringLiteral
import GraphQLText.Proofs.Lexical.NumberScanning

/-!
# The characters of names and numbers

Names and numbers consist of plain characters: letters, digits, underscores, minus signs and points.
None of these is a control character, a space, a comma, a quote or a punctuator.
-/

namespace GraphQLText.Token

/-- The characters of which names and numbers consist. -/
def IsPlain (c : Char) : Prop :=
  isNameContinue c = true ∨ c = '-' ∨ c = '.'

instance (c : Char) : Decidable (IsPlain c) :=
  inferInstanceAs (Decidable (isNameContinue c = true ∨ c = '-' ∨ c = '.'))

theorem IsPlain.toNat_lt {c : Char} (h : IsPlain c) : c.toNat < 128 := by
  rcases h with h | rfl | rfl
  · exact Name.toNat_lt_of_isNameContinue h
  · decide
  · decide

/-- What plain characters are not. -/
theorem IsPlain.ne {c : Char} (h : IsPlain c) :
    StringLiteral.isControl c = false ∧ isPunctuator c = false ∧ c ∉ ['"', ' ', ','] := by
  have hascii : ∀ c : Char, c.toNat < 128 → IsPlain c →
      StringLiteral.isControl c = false ∧ isPunctuator c = false ∧ c ∉ ['"', ' ', ','] :=
    Name.forall_ascii (by decide)
  exact hascii c h.toNat_lt h

theorem isPlain_of_isDigit {c : Char} (h : c.isDigit = true) : IsPlain c :=
  Or.inl (isNameContinue_of_isDigit h)

theorem IsName.isPlain {cs : List Char} (h : IsName cs) : ∀ c ∈ cs, IsPlain c := by
  cases cs with
  | nil => exact h.elim
  | cons c cs =>
      intro d hd
      rcases List.mem_cons.mp hd with rfl | hd
      · exact Or.inl (Name.isNameContinue_of_isNameStart h.1)
      · exact Or.inl (h.2 d hd)

theorem IsDigits.isPlain {ds : List Char} (h : IsDigits ds) : ∀ d ∈ ds, IsPlain d :=
  fun d hd => isPlain_of_isDigit (h.2 d hd)

/-- A plain character in front of plain characters. -/
theorem isPlain_cons {c : Char} {cs : List Char} (hc : IsPlain c) (hcs : ∀ d ∈ cs, IsPlain d) :
    ∀ d ∈ c :: cs, IsPlain d :=
  List.forall_mem_cons.mpr ⟨hc, hcs⟩

theorem IsIntValue.isPlain {cs : List Char} (h : IsIntValue cs) : ∀ c ∈ cs, IsPlain c := by
  obtain ⟨sign, whole, rfl, rfl | rfl, hwhole⟩ := h
  · exact hwhole.isDigits.isPlain
  · exact isPlain_cons (by decide) hwhole.isDigits.isPlain

theorem IsFraction.isPlain {cs : List Char} (h : IsFraction cs) : ∀ c ∈ cs, IsPlain c := by
  rcases h with rfl | ⟨ds, hds, rfl⟩
  · simp
  · exact isPlain_cons (by decide) hds.isPlain

theorem IsExponent.isPlain {cs : List Char} (h : IsExponent cs) : ∀ c ∈ cs, IsPlain c := by
  rcases h with rfl | ⟨ds, hds, rfl | rfl⟩
  · simp
  · exact isPlain_cons (by decide) hds.isPlain
  · exact isPlain_cons (by decide) (isPlain_cons (by decide) hds.isPlain)

theorem IsFloatValue.isPlain {cs : List Char} (h : IsFloatValue cs) : ∀ c ∈ cs, IsPlain c := by
  obtain ⟨integer, fraction, exponent, rfl, hinteger, hfraction, hexponent, -⟩ := h
  intro c hc
  rw [List.mem_append, List.mem_append] at hc
  rcases hc with hc | hc | hc
  · exact hinteger.isPlain c hc
  · exact hfraction.isPlain c hc
  · exact hexponent.isPlain c hc

/-- Plain characters at the front of a text do not reach across the end of a token. -/
theorem AtBoundary.length_le_of_isPlain {cs rest plain : List Char} (hrest : AtBoundary rest)
    (h : plain <+: cs ++ rest) (hplain : ∀ c ∈ plain, IsPlain c) : plain.length ≤ cs.length := by
  apply Nat.le_of_not_lt
  intro hlonger
  obtain ⟨tail, rfl⟩ := List.prefix_of_prefix_length_le (List.prefix_append cs rest) h
    (Nat.le_of_lt hlonger)
  rw [List.prefix_append_right_inj] at h
  cases tail with
  | nil => simp at hlonger
  | cons c tail =>
      obtain ⟨rest, rfl⟩ := h
      obtain ⟨-, hpunctuator, hspace⟩ := (hplain c (by simp)).ne
      rcases hrest c (by simp) with hc | rfl
      · rw [hc] at hpunctuator
        cases hpunctuator
      · simp at hspace

end GraphQLText.Token

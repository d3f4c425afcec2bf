import GraphQLText.Lexical.Token

/-!
# Splitting a text into tokens

Each step of the lexer leaves a shorter text, so repeating it comes to an end.
-/

namespace GraphQLText.Token

theorem length_lt_of_takeNatural {cs digits rest : List Char}
    (h : takeNatural cs = some (digits, rest)) : rest.length < cs.length := by
  cases cs with
  | nil => simp [takeNatural] at h
  | cons c cs =>
    have := (cs.dropWhile_sublist Char.isDigit).length_le
    simp only [takeNatural, takeDigits] at h
    split at h
    · simp_all
    · split at h
      · simp only [Option.some.injEq, Prod.mk.injEq] at h
        obtain ⟨-, rfl⟩ := h
        simp only [List.length_cons]
        omega
      · simp at h

theorem length_lt_of_takeInteger {cs digits rest : List Char}
    (h : takeInteger cs = some (digits, rest)) : rest.length < cs.length := by
  unfold takeInteger at h
  split at h
  · simp only [Option.map_eq_some_iff, Prod.mk.injEq, Prod.exists] at h
    obtain ⟨ds, r, hr, -, rfl⟩ := h
    have := length_lt_of_takeNatural hr
    simp only [List.length_cons]
    omega
  · exact length_lt_of_takeNatural h

theorem length_takeFraction_le (cs : List Char) :
    (takeFraction cs).2.length ≤ cs.length := by
  unfold takeFraction
  split
  · rename_i c cs
    have := (cs.dropWhile_sublist Char.isDigit).length_le
    split
    · simp only [takeDigits, List.length_cons]
      omega
    · exact Nat.le_refl _
  · exact Nat.le_refl _

theorem length_takeExponent_le (cs : List Char) :
    (takeExponent cs).2.length ≤ cs.length := by
  cases cs with
  | nil => exact Nat.le_refl _
  | cons c cs =>
    have hSign : (takeSign cs).2.length ≤ cs.length := by
      unfold takeSign
      split <;> simp
    have := ((takeSign cs).2.dropWhile_sublist Char.isDigit).length_le
    simp only [takeExponent]
    split
    · simp only [takeDigits, List.length_cons]
      omega
    · exact Nat.le_refl _

theorem length_lt_of_takeNumber {cs rest : List Char} {token : Token}
    (h : takeNumber cs = some (token, rest)) : rest.length < cs.length := by
  simp only [takeNumber, Option.map_eq_some_iff, Prod.exists] at h
  obtain ⟨digits, afterInteger, hInteger, h⟩ := h
  have hLess := length_lt_of_takeInteger hInteger
  have hFraction := length_takeFraction_le afterInteger
  have hExponent := length_takeExponent_le (takeFraction afterInteger).2
  split at h <;> simp only [Prod.mk.injEq] at h <;> obtain ⟨-, rfl⟩ := h <;> omega

theorem length_lt_of_takeString {cs contents rest : List Char}
    (h : takeString cs = some (contents, rest)) : rest.length < cs.length := by
  fun_induction takeString cs generalizing contents rest <;>
    simp_all [Option.bind_eq_some_iff, Option.map_eq_some_iff] <;> grind

theorem length_lt_of_takeBlockString {cs contents rest : List Char}
    (h : takeBlockString cs = some (contents, rest)) : rest.length < cs.length := by
  fun_induction takeBlockString cs generalizing contents rest <;>
    simp_all [Option.map_eq_some_iff] <;> grind

/-- A step of the lexer never lengthens what is left. -/
theorem length_le_of_next {c : Char} {cs rest : List Char} {token? : Option Token}
    (h : next c cs = some (token?, rest)) : rest.length ≤ cs.length := by
  unfold next at h
  split at h
  · simp_all
  split at h
  · simp only [Option.some.injEq, Prod.mk.injEq] at h
    obtain ⟨-, rfl⟩ := h
    exact (cs.dropWhile_sublist _).length_le
  split at h
  · simp_all
  split at h
  · simp only [Option.some.injEq, Prod.mk.injEq] at h
    obtain ⟨-, rfl⟩ := h
    exact (cs.dropWhile_sublist _).length_le
  split at h
  · split at h
    · simp only [Option.some.injEq, Prod.mk.injEq] at h
      obtain ⟨-, rfl⟩ := h
      simp only [List.length_cons]
      omega
    · simp at h
  split at h
  · split at h
    · simp only [Option.map_eq_some_iff, Prod.mk.injEq, Prod.exists] at h
      obtain ⟨text, r, hText, -, rfl⟩ := h
      have := length_lt_of_takeBlockString hText
      simp only [List.length_cons]
      omega
    · simp only [Option.map_eq_some_iff, Prod.mk.injEq, Prod.exists] at h
      obtain ⟨text, r, hText, -, rfl⟩ := h
      exact Nat.le_of_lt (length_lt_of_takeString hText)
  · simp only [Option.map_eq_some_iff, Prod.mk.injEq, Prod.exists] at h
    obtain ⟨number, r, hNumber, -, rfl⟩ := h
    have := length_lt_of_takeNumber hNumber
    simp only [List.length_cons] at this
    omega

/-- The tokens of a text, if it consists of tokens. -/
def lex : List Char → Option (List Token)
  | [] => some []
  | c :: cs =>
    match h : next c cs with
    | none => none
    | some (token?, rest) =>
      have : rest.length ≤ cs.length := length_le_of_next h
      (lex rest).map (token?.toList ++ ·)
termination_by cs => cs.length
decreasing_by
  simp only [List.length_cons]
  omega

end GraphQLText.Token

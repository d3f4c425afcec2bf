import GraphQLText.Proofs.Lexical.NumeralSyntax
import GraphQLText.Proofs.Number.ReadingBack

/-!
# Reading numbers back

The parts of a number literal are taken one after another, and what they spell is the decimal of the
literal.  For the literal of a finite binary number this is a decimal of the same value as the
shortest one, so the number is read back bit by bit, with the sign of a zero.
-/

namespace GraphQLText.Numeral

open Token

/-- A literal is read as its sign and the decimal that its parts spell. -/
theorem decimal?_of_parts {whole fraction exponent : List Char} (hwhole : IsNatural whole)
    (hfraction : IsFraction fraction) (hexponent : IsExponent exponent) (isNegative : Bool) :
    decimal? ((if isNegative then ['-'] else []) ++ (whole ++ (fraction ++ exponent))) =
      some (isNegative, spelled whole fraction exponent) := by
  have hmark := hexponent.head?_append atBoundary_nil
  have htakeExponent := takeExponent_append hexponent atBoundary_nil
  rw [List.append_nil] at hmark htakeExponent
  have htakeFraction := takeFraction_append hfraction
    (fun c hc => (hmark c hc).1) (fun c hc => (hmark c hc).2)
  have htakeNatural := takeNatural_append hwhole
    (hfraction.head?_append fun c hc => (hmark c hc).1)
  unfold decimal?
  cases isNegative with
  | true => simp [htakeNatural, htakeFraction, htakeExponent, spelled]
  | false =>
      have hunsigned : ∀ rest, whole ++ (fraction ++ exponent) ≠ '-' :: rest := by
        intro rest hrest
        cases whole with
        | nil => exact hwhole
        | cons d ds =>
            obtain ⟨rfl, -⟩ := List.cons.inj hrest
            exact absurd hwhole.1 (by decide)
      simp [htakeNatural, htakeFraction, htakeExponent, spelled]

/-- The literal of a binary number is read as its sign and a decimal of the value that is written
for it. -/
theorem exists_decimal?_ofBinary {f : BinaryFormat} (x : Binary f) :
    ∃ d, decimal? (ofBinary x) = some (x.isNegative, d) ∧ d.value = x.shortest.value := by
  obtain ⟨whole, fraction, exponent, heq, hwhole, hfraction, hexponent, -, hvalue⟩ :=
    ofDecimal_eq x.exponent_shortest_of_coefficient_eq_zero
  have htext : ofBinary x =
      (if x.isNegative then ['-'] else []) ++ (whole ++ (fraction ++ exponent)) := by
    rw [ofBinary, heq]
    cases x.isNegative with
    | true => rfl
    | false => rfl
  rw [htext, decimal?_of_parts hwhole hfraction hexponent]
  exact ⟨_, rfl, hvalue⟩

/-- The literal of a finite binary number is read as that number, up to its last bit. -/
theorem binary?_ofBinary {f : BinaryFormat} {x : Binary f} (h : x.isFinite = true) :
    binary? f (ofBinary x) = some x := by
  obtain ⟨d, hd, hvalue⟩ := exists_decimal?_ofBinary x
  rw [binary?, hd, Option.map_some]
  exact congrArg some (x.round_of_value_eq_shortest h hvalue)

end GraphQLText.Numeral

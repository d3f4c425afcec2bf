import GraphQLText.Printing.Node
import GraphQLText.Proofs.Lexical.PlainCharacters
import GraphQLText.Proofs.Number.Shortness
import GraphQLText.Proofs.Reading.Lexing
import GraphQLText.Proofs.Reading.Number

/-!
# Floating-point values

A finite floating-point value is written by its literal in the format that it is kept in.  The
literal is read as the same number, bit by bit, and is one float token wherever a value can stand.
A value that is not finite is refused before anything is written.
-/

namespace GraphQLText

open Printer

/-- A value that is a floating-point number of one of the two formats. -/
inductive Value.IsFloat : Value → {f : BinaryFormat} → Binary f → Prop where
  | single (x : Binary32) : IsFloat (.single x) x
  | double (x : Binary64) : IsFloat (.double x) x

section

variable {f : BinaryFormat} {x : Binary f} {value : Value}

theorem Value.IsFloat.printer_eq (h : value.IsFloat x) : value.printer = x.printer := by
  cases h with
  | single => rfl
  | double => rfl

theorem Value.IsFloat.fractionBits_pos (h : value.IsFloat x) : 0 < f.fractionBits := by
  cases h with
  | single => decide
  | double => decide

theorem Value.IsFloat.print_eq (h : value.IsFloat x) (hfinite : x.isFinite = true) :
    (Node.value value).print = .ok (String.ofList (Numeral.ofBinary x)) := by
  have hkind : x.nonFinite? = none := by rw [Binary.nonFinite?, if_pos hfinite]
  have hprinter : (Node.value value).printer = putChars (Numeral.ofBinary x) := by
    rw [Node.printer, h.printer_eq, Binary.printer, hkind]
  rw [Node.print, hprinter, print, putChars, appendTo_put, String.empty_append]

theorem Binary.exists_nonFinite?_eq_some (h : x.isFinite = false) :
    ∃ kind, x.nonFinite? = some kind := by
  rw [nonFinite?, h, if_neg Bool.false_ne_true]
  split
  · exact ⟨_, rfl⟩
  · split
    · exact ⟨_, rfl⟩
    · exact ⟨_, rfl⟩

theorem Value.IsFloat.appendTo_eq_of_nonFinite {kind : NonFinite} (h : value.IsFloat x)
    (hkind : x.nonFinite? = some kind) (text : String) :
    (Node.value value).printer.appendTo text =
      (.error (.unsupportedNumber (.nonFinite kind)), text) := by
  rw [Node.printer, h.printer_eq, Binary.printer, hkind, appendTo_refuse]

/-- The literals of two finite numbers of one format differ. -/
theorem Numeral.ofBinary_inj {y : Binary f} (hx : x.isFinite = true) (hy : y.isFinite = true)
    (h : ofBinary x = ofBinary y) : x = y := by
  have hread := binary?_ofBinary hx
  rw [h, binary?_ofBinary hy] at hread
  exact (Option.some.inj hread).symm

/-- A finite floating-point value has a text.  It denotes a decimal that is rounded, in the format
of the value and with the sign that is read, to the same bits; no decimal with fewer digits is.  No
other value of the same format has this text. -/
theorem Value.IsFloat.exists_shortest_text (hvalue : value.IsFloat x)
    (hfinite : x.isFinite = true) :
    ∃ text decimal, (Node.value value).print = .ok text ∧
      Numeral.decimal? text.toList = some (x.isNegative, decimal) ∧
      decimal.round f x.isNegative = x ∧ x.IsNearestTo decimal.value ∧
      (∀ (d : Decimal) (isNegative : Bool), d.round f isNegative = x →
        decimal.significantDigits ≤ d.significantDigits) ∧
      ∀ (y : Binary f) (other : Value), other.IsFloat y → y.isFinite = true →
        (Node.value other).print = .ok text → y = x := by
  obtain ⟨decimal, hread, hsame⟩ := Numeral.exists_decimal?_ofBinary x
  have hround := x.round_of_value_eq_shortest hfinite hsame
  refine ⟨String.ofList (Numeral.ofBinary x), decimal, hvalue.print_eq hfinite, ?_, hround,
    Binary.isNearestTo_of_round_eq hvalue.fractionBits_pos hfinite hround, ?_, ?_⟩
  · rw [String.toList_ofList, hread]
  · intro d isNegative hd
    exact Binary.significantDigits_le_of_round_eq hvalue.fractionBits_pos hfinite hsame hd
  · intro y other hother hy htext
    rw [hother.print_eq hy, Except.ok.injEq] at htext
    exact Numeral.ofBinary_inj hy hfinite (String.ofList_injective htext)

theorem Value.IsFloat.exists_shortest_text_least :
    (Value.double ⟨1⟩).IsFloat (⟨1⟩ : Binary64) ∧ (⟨1⟩ : Binary64).isFinite = true ∧
      (Node.value (.double ⟨1⟩)).print = .ok "5e-324" ∧
      ∃ text decimal, (Node.value (.double ⟨1⟩)).print = .ok text ∧
        Numeral.decimal? text.toList = some (false, decimal) ∧
        decimal.round .binary64 false = ⟨1⟩ := by
  have hfinite : (⟨1⟩ : Binary64).isFinite = true := by decide
  refine ⟨.double _, hfinite, by decide +kernel, ?_⟩
  obtain ⟨text, decimal, hprint, hread, hround, -⟩ :=
    (Value.IsFloat.double ⟨1⟩).exists_shortest_text hfinite
  exact ⟨text, decimal, hprint, hread, hround⟩

/-- A finite floating-point value is written as a float literal, with a minus sign in front if its
sign bit is set.  Before any end of a token the literal is taken as one float token, and no longer
part of the text is a number literal.  A value that is not finite is refused, and nothing is
written.  So no integer has the text of a floating-point value. -/
theorem Value.IsFloat.float_token_or_refused (hvalue : value.IsFloat x) :
    (x.isFinite = true → ∃ text, (Node.value value).print = .ok text ∧
      Token.IsFloatValue text.toList ∧
      (text.toList.head? = some '-' ↔ x.isNegative = true) ∧
      ∀ rest, Token.AtBoundary rest →
        (∃ c cs, text.toList = c :: cs ∧
          Token.next c (cs ++ rest) = some (some (.float text), rest)) ∧
        ∀ number, number <+: text.toList ++ rest →
          Token.IsFloatValue number ∨ Token.IsIntValue number →
          number.length ≤ text.toList.length) ∧
    (x.isFinite = false → ∃ kind, x.nonFinite? = some kind ∧
      ∀ text, (Node.value value).printer.appendTo text =
        (.error (.unsupportedNumber (.nonFinite kind)), text)) ∧
    ∀ n : Int64, (Node.value (.int n)).print ≠ (Node.value value).print := by
  refine ⟨?_, ?_, ?_⟩
  · intro hfinite
    have hfloat := Numeral.isFloatValue_ofBinary x
    refine ⟨_, hvalue.print_eq hfinite, ?_, ?_, ?_⟩
    · rwa [String.toList_ofList]
    · rw [String.toList_ofList]
      exact Numeral.head?_ofBinary_eq_iff x
    · intro rest hrest
      constructor
      · obtain ⟨c, cs, hcons, -⟩ := hfloat.exists_cons
        rw [hcons] at hfloat ⊢
        exact ⟨c, cs, String.toList_ofList, Token.next_float hfloat hrest⟩
      · intro number hprefix hnumber
        apply hrest.length_le_of_isPlain hprefix
        rcases hnumber with hnumber | hnumber
        · exact hnumber.isPlain
        · exact hnumber.isPlain
  · intro hinfinite
    obtain ⟨kind, hkind⟩ := Binary.exists_nonFinite?_eq_some hinfinite
    refine ⟨kind, hkind, fun text => ?_⟩
    exact hvalue.appendTo_eq_of_nonFinite hkind text
  · intro n hsame
    have hint : (Node.value (.int n)).print = .ok (String.ofList (Numeral.ofInt n.toInt)) := by
      rw [Node.print, Node.printer, Value.printer, putChars, print, appendTo_put,
        String.empty_append]
    rw [hint] at hsame
    cases hfinite : x.isFinite with
    | true =>
        rw [hvalue.print_eq hfinite, Except.ok.injEq] at hsame
        have hfloat := Numeral.isFloatValue_ofBinary x
        rw [← String.ofList_injective hsame] at hfloat
        exact hfloat.not_isIntValue (Numeral.isIntValue_ofInt _)
    | false =>
        obtain ⟨kind, hkind⟩ := Binary.exists_nonFinite?_eq_some hfinite
        rw [Node.print, print, hvalue.appendTo_eq_of_nonFinite hkind] at hsame
        cases hsame

theorem Value.IsFloat.float_token_or_refused_large :
    (Value.double ⟨0x4341c37937e08000⟩).IsFloat (⟨0x4341c37937e08000⟩ : Binary64) ∧
      (Node.value (.double ⟨0x4341c37937e08000⟩)).print = .ok "1e16" ∧
      ∃ text, (Node.value (.double ⟨0x4341c37937e08000⟩)).print = .ok text ∧
        ∃ c cs, text.toList = c :: cs ∧
          Token.next c (cs ++ [')']) = some (some (.float text), [')']) := by
  refine ⟨.double _, by decide +kernel, ?_⟩
  obtain ⟨text, hprint, -, -, hnext⟩ :=
    (Value.IsFloat.double ⟨0x4341c37937e08000⟩).float_token_or_refused.1 (by decide)
  have hboundary : Token.AtBoundary [')'] := Token.atBoundary_cons (Or.inl (by decide))
  exact ⟨text, hprint, (hnext [')'] hboundary).1⟩

end

end GraphQLText

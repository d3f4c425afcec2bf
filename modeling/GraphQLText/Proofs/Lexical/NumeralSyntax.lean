import GraphQLText.Proofs.Lexical.NumberScanning
import GraphQLText.Proofs.Number.RoundingInterval
import GraphQLText.Reading.Number

/-!
# The syntax of written numbers

The digits of a number have no leading zero, so an integer is written as an integer literal.  A
decimal is written with a fraction or an exponent in both of its forms.  The decimal of a binary
number has the coefficient zero only for the number zero, since the numbers around any other one are
positive; so no leading zero arises there either.
-/

namespace GraphQLText

open Token

namespace Numeral

theorem isDigit_of_mem_digits {n : Nat} {d : Char} (h : d ∈ digits n) :
    d.isDigit = true :=
  Nat.isDigit_of_mem_toDigits (by decide) (by decide) h

/-- The digits of a positive number start with a digit other than zero. -/
theorem digits_eq_cons_of_pos {n : Nat} (hn : 0 < n) :
    ∃ d ds, digits n = d :: ds ∧ d ≠ '0' := by
  induction n using Nat.strongRecOn with
  | ind n ih =>
      by_cases hsmall : n < 10
      · have hdigit : ∀ k, k < 10 → 0 < k → k.digitChar ≠ '0' := by decide
        exact ⟨n.digitChar, [], Nat.toDigits_of_lt_base hsmall,
          hdigit n hsmall hn⟩
      · obtain ⟨d, ds, hds, hd⟩ := ih (n / 10) (by omega) (by omega)
        refine ⟨d, ds ++ [(n % 10).digitChar], ?_, hd⟩
        rw [digits, Nat.toDigits_of_base_le (by decide) (by omega)]
        rw [digits] at hds
        rw [hds, List.cons_append]

theorem isNatural_digits (n : Nat) : IsNatural (digits n) := by
  rcases Nat.eq_zero_or_pos n with rfl | hn
  · have hzero : digits 0 = ['0'] := Nat.toDigits_zero 10
    rw [hzero]
    exact ⟨by decide, fun _ => rfl, by simp⟩
  · obtain ⟨d, ds, hds, hd⟩ := digits_eq_cons_of_pos hn
    have hdigit : ∀ e ∈ d :: ds, e.isDigit = true := by
      intro e he
      exact isDigit_of_mem_digits (hds ▸ he)
    rw [hds]
    exact ⟨hdigit d List.mem_cons_self, fun h => absurd h hd,
      fun e he => hdigit e (List.mem_cons_of_mem d he)⟩

theorem isDigits_digits (n : Nat) : IsDigits (digits n) :=
  (isNatural_digits n).isDigits

/-- An integer is written as an integer literal. -/
theorem isIntValue_ofInt (n : Int) : IsIntValue (ofInt n) := by
  unfold ofInt
  split
  · exact ⟨['-'], digits n.natAbs, rfl, Or.inr rfl, isNatural_digits _⟩
  · exact ⟨[], digits n.natAbs, rfl, Or.inl rfl, isNatural_digits _⟩

/-- The literal of an integer denotes it. -/
theorem integer_ofInt (n : Int) : integer (ofInt n) = n := by
  have hvalue (k : Nat) : Nat.ofDigitChars 10 (digits k) 0 = k :=
    Nat.ofDigitChars_ten_toDigits
  unfold ofInt
  split
  · next hneg =>
      rw [integer, hvalue]
      omega
  · next hpos =>
      obtain ⟨d, ds, hds⟩ := List.exists_cons_of_ne_nil (isDigits_digits n.natAbs).1
      have hd : d.isDigit = true := isDigit_of_mem_digits (hds ▸ List.mem_cons_self)
      have hvalue' := hvalue n.natAbs
      rw [hds] at hvalue' ⊢
      rw [integer, hvalue']
      · omega
      · intro tail htail
        obtain ⟨rfl, -⟩ := List.cons.inj htail
        exact absurd hd (by decide)
      · intro tail htail
        obtain ⟨rfl, -⟩ := List.cons.inj htail
        exact absurd hd (by decide)

/-- A float literal goes on after its sign as one without it. -/
theorem isFloatValue_of_parts {whole fraction exponent : List Char}
    (hwhole : IsNatural whole) (hfraction : IsFraction fraction)
    (hexponent : IsExponent exponent)
    (hne : ¬ (fraction = [] ∧ exponent = [])) {sign : List Char}
    (hsign : IsSign sign) :
    IsFloatValue (sign ++ (whole ++ (fraction ++ exponent))) :=
  ⟨sign ++ whole, fraction, exponent, (List.append_assoc _ _ _).symm,
    ⟨sign, whole, rfl, hsign, hwhole⟩, hfraction, hexponent, hne⟩

theorem isExponent_ofInt (n : Int) : IsExponent ('e' :: ofInt n) := by
  unfold ofInt
  split
  · exact Or.inr ⟨digits n.natAbs, isDigits_digits _, Or.inr rfl⟩
  · exact Or.inr ⟨digits n.natAbs, isDigits_digits _, Or.inl rfl⟩

/-- Zeros that pad digits are digits. -/
theorem isDigit_of_mem_append_replicate {ds : List Char} {n : Nat}
    (hds : ∀ d ∈ ds, d.isDigit = true) :
    ∀ d ∈ ds ++ List.replicate n '0', d.isDigit = true := by
  intro d hd
  rcases List.mem_append.mp hd with hd | hd
  · exact hds d hd
  · rw [List.eq_of_mem_replicate hd]
    decide

/-! ### The value of the parts -/

/-- The decimal that is spelled by the parts of a number. -/
def spelled (whole fraction exponent : List Char) : Decimal where
  coefficient := Nat.ofDigitChars 10 (whole ++ fraction.drop 1) 0
  exponent := integer (exponent.drop 1) - (fraction.drop 1).length

/-- Zeros after the digits of a number count as powers of ten. -/
theorem value_append_replicate (ds : List Char) (k : Nat) (e : Int) :
    (⟨Nat.ofDigitChars 10 (ds ++ List.replicate k '0') 0, e⟩ : Decimal).value =
      (⟨Nat.ofDigitChars 10 ds 0, e + k⟩ : Decimal).value := by
  rw [Decimal.value, Decimal.value, Nat.ofDigitChars_append, Nat.ofDigitChars_replicate_zero,
    Rat.natCast_mul, Rat.natCast_pow, Rat.zpow_add (by decide), Rat.zpow_natCast]
  grind

/-- Zeros before the digits of a number do not count. -/
theorem ofDigitChars_replicate_append (k : Nat) (ds : List Char) :
    Nat.ofDigitChars 10 (List.replicate k '0' ++ ds) 0 = Nat.ofDigitChars 10 ds 0 := by
  rw [Nat.ofDigitChars_append, Nat.ofDigitChars_replicate_zero, Nat.mul_zero]

theorem integer_nil : integer [] = 0 :=
  rfl

/-- The point stands among the digits. -/
theorem spelled_split {ds : List Char} {n : Nat} (h : n < ds.length) :
    spelled (ds.take n) ('.' :: ds.drop n) [] = ⟨Nat.ofDigitChars 10 ds 0, n - ds.length⟩ := by
  have hexponent : (0 : Int) - (ds.length - n : Nat) = n - ds.length := by omega
  rw [spelled, List.drop_one, List.tail_cons, List.take_append_drop, List.drop_nil, integer_nil,
    List.length_drop, hexponent]

/-- The point stands after the digits and after zeros that pad them. -/
theorem value_spelled_pad {ds : List Char} {n : Nat} (h : ds.length ≤ n) :
    (spelled (ds ++ List.replicate (n - ds.length) '0') ['.', '0'] []).value =
      (⟨Nat.ofDigitChars 10 ds 0, n - ds.length⟩ : Decimal).value := by
  have hpad : ds ++ List.replicate (n - ds.length) '0' ++ ['0'] =
      ds ++ List.replicate (n - ds.length + 1) '0' := by
    rw [List.append_assoc, List.replicate_succ']
  have hexponent : (-1 : Int) + (n - ds.length + 1 : Nat) = n - ds.length := by omega
  have hvalue := value_append_replicate ds (n - ds.length + 1) (-1)
  rw [hexponent, ← hpad] at hvalue
  exact hvalue

/-- The point stands before the digits, and zeros between. -/
theorem spelled_lead (n : Nat) (ds : List Char) :
    spelled ['0'] ('.' :: (List.replicate n '0' ++ ds)) [] =
      ⟨Nat.ofDigitChars 10 ds 0, -n - ds.length⟩ := by
  have hexponent : (0 : Int) - (n + ds.length : Nat) = -n - ds.length := by omega
  rw [spelled, List.drop_one, List.tail_cons, List.cons_append, List.nil_append,
    ← List.cons_append, ← List.replicate_succ, ofDigitChars_replicate_append, List.drop_nil,
    integer_nil, List.length_append, List.length_replicate, hexponent]

/-- A decimal written positionally: the part before the point has no leading zero, there is a digit
after the point, and the parts spell the decimal. -/
theorem positional_eq {ds : List Char} (hds : IsNatural ds) {e : Int}
    (hzero : ds = ['0'] → e = 0) :
    ∃ whole fraction, positional ds e = whole ++ '.' :: fraction ∧
      IsNatural whole ∧ IsDigits fraction ∧
      (spelled whole ('.' :: fraction) []).value =
        (⟨Nat.ofDigitChars 10 ds 0, e + 1 - ds.length⟩ : Decimal).value := by
  have hall := hds.isDigits.2
  cases e with
  | ofNat n =>
      refine ⟨_, _, rfl, ?_, ?_, ?_⟩
      · cases ds with
        | nil => exact hds.elim
        | cons d ds =>
            rw [List.take_succ_cons, List.cons_append]
            refine ⟨hds.1, ?_, ?_⟩
            · intro hd
              have hnil := hds.2.1 hd
              have hn : n = 0 := by
                have he := hzero (by rw [hd, hnil])
                simpa using he
              simp [hnil, hn]
            · apply isDigit_of_mem_append_replicate
              exact fun c hc => hds.2.2 c (List.mem_of_mem_take hc)
      · split
        · exact ⟨by decide, by simp⟩
        · next hne =>
            refine ⟨?_, fun c hc => hall c (List.mem_of_mem_drop hc)⟩
            simpa using hne
      · rcases Nat.lt_or_ge (n + 1) ds.length with hlong | hshort
        · have hpad : n + 1 - ds.length = 0 := by omega
          rw [hpad, List.replicate_zero, List.append_nil, if_neg (by simpa using hlong),
            spelled_split hlong]
          rfl
        · rw [List.take_of_length_le hshort, List.drop_of_length_le hshort]
          exact value_spelled_pad hshort
  | negSucc n =>
      refine ⟨['0'], _, rfl, ⟨by decide, fun _ => rfl, by simp⟩, ⟨?_, ?_⟩, ?_⟩
      · simp [hds.isDigits.1]
      · intro d hd
        rcases List.mem_append.mp hd with hd | hd
        · rw [List.eq_of_mem_replicate hd]
          decide
        · exact hall d hd
      · rw [spelled_lead, Int.negSucc_eq]
        have hexponent : -((n : Int) + 1) + 1 - ds.length = -n - ds.length := by omega
        rw [hexponent]

/-- A decimal written with an exponent: a single digit, perhaps digits after a point, and the
exponent. -/
theorem scientific_eq {ds : List Char} (hds : IsNatural ds) (e : Int) :
    ∃ whole fraction, scientific ds e = whole ++ (fraction ++ 'e' :: ofInt e) ∧
      IsNatural whole ∧ IsFraction fraction ∧
      spelled whole fraction ('e' :: ofInt e) =
        ⟨Nat.ofDigitChars 10 ds 0, e + 1 - ds.length⟩ := by
  cases ds with
  | nil => exact hds.elim
  | cons d ds =>
      refine ⟨[d], if ds.isEmpty then [] else '.' :: ds, ?_, ?_, ?_, ?_⟩
      · simp [scientific]
      · exact ⟨hds.1, fun _ => rfl, by simp⟩
      · split
        · exact Or.inl rfl
        · next hne =>
            exact Or.inr ⟨ds, ⟨by simpa using hne, hds.2.2⟩, rfl⟩
      · have hdecimals : (if ds.isEmpty then [] else '.' :: ds).drop 1 = ds := by
          cases ds with
          | nil => rfl
          | cons d ds => rfl
        have hexponent : e - ds.length = e + 1 - (d :: ds).length := by
          rw [List.length_cons]
          omega
        rw [spelled, hdecimals, List.drop_one, List.tail_cons, integer_ofInt, hexponent]
        rfl

/-- Digits of the coefficient and the power of the first of them give back the decimal. -/
theorem ofDigitChars_digits (d : Decimal) :
    (⟨Nat.ofDigitChars 10 (digits d.coefficient) 0,
      d.exponent + (digits d.coefficient).length - 1 + 1 - (digits d.coefficient).length⟩ :
        Decimal) = d := by
  have hvalue : Nat.ofDigitChars 10 (digits d.coefficient) 0 = d.coefficient :=
    Nat.ofDigitChars_ten_toDigits
  have hexponent : d.exponent + (digits d.coefficient).length - 1 + 1 -
      (digits d.coefficient).length = d.exponent := by omega
  rw [hvalue, hexponent]

/-- A decimal is written as a natural number, a fraction and an exponent, not both of them empty,
that spell it.  Zero has to be given without an exponent, so that no zero stands before another
digit. -/
theorem ofDecimal_eq {d : Decimal} (hzero : d.coefficient = 0 → d.exponent = 0) :
    ∃ whole fraction exponent, ofDecimal d = whole ++ (fraction ++ exponent) ∧
      IsNatural whole ∧ IsFraction fraction ∧ IsExponent exponent ∧
      ¬ (fraction = [] ∧ exponent = []) ∧ (spelled whole fraction exponent).value = d.value := by
  have hds := isNatural_digits d.coefficient
  unfold ofDecimal
  dsimp only
  split
  · have hleading : digits d.coefficient = ['0'] →
        d.exponent + (digits d.coefficient).length - 1 = 0 := by
      intro h
      have hcoefficient : d.coefficient = 0 := by
        have hvalue : Nat.ofDigitChars 10 (digits d.coefficient) 0 = d.coefficient :=
          Nat.ofDigitChars_ten_toDigits
        rw [← hvalue, h]
        decide
      rw [h, hzero hcoefficient]
      decide
    obtain ⟨whole, fraction, heq, hwhole, hfraction, hvalue⟩ := positional_eq hds hleading
    rw [ofDigitChars_digits] at hvalue
    refine ⟨whole, '.' :: fraction, [], ?_, hwhole, Or.inr ⟨fraction, hfraction, rfl⟩, Or.inl rfl,
      by simp, hvalue⟩
    rw [heq, List.append_nil]
  · obtain ⟨whole, fraction, heq, hwhole, hfraction, hvalue⟩ := scientific_eq hds
      (d.exponent + (digits d.coefficient).length - 1)
    rw [ofDigitChars_digits] at hvalue
    exact ⟨whole, fraction, _, heq, hwhole, hfraction, isExponent_ofInt _, by simp,
      congrArg Decimal.value hvalue⟩

/-- A decimal is written as a float literal, whatever its sign. -/
theorem isFloatValue_ofDecimal {d : Decimal}
    (hzero : d.coefficient = 0 → d.exponent = 0) {sign : List Char}
    (hsign : IsSign sign) :
    IsFloatValue (sign ++ ofDecimal d) := by
  obtain ⟨whole, fraction, exponent, heq, hwhole, hfraction, hexponent, hne, -⟩ :=
    ofDecimal_eq hzero
  rw [heq]
  exact isFloatValue_of_parts hwhole hfraction hexponent hne hsign

/-- A binary number is written as a float literal. -/
theorem isFloatValue_ofBinary {f : BinaryFormat} (x : Binary f) :
    IsFloatValue (ofBinary x) := by
  have hzero := x.exponent_shortest_of_coefficient_eq_zero
  unfold ofBinary
  split
  · exact isFloatValue_ofDecimal hzero (Or.inr rfl)
  · exact isFloatValue_ofDecimal hzero (Or.inl rfl)

/-- The literal of a binary number starts with a minus sign if its sign bit is set; otherwise it
starts with a digit. -/
theorem head?_ofBinary_eq_iff {f : BinaryFormat} (x : Binary f) :
    (ofBinary x).head? = some '-' ↔ x.isNegative = true := by
  obtain ⟨whole, fraction, exponent, heq, hwhole, -⟩ :=
    ofDecimal_eq x.exponent_shortest_of_coefficient_eq_zero
  rw [ofBinary, heq]
  cases x.isNegative with
  | true => simp
  | false =>
      cases whole with
      | nil => exact hwhole.elim
      | cons d ds =>
          have hd : d ≠ '-' := by
            rintro rfl
            exact absurd hwhole.1 (by decide)
          simp [hd]

end Numeral

end GraphQLText

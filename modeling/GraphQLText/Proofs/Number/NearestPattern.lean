import GraphQLText.Proofs.Number.Rounding
import Mathlib.Tactic.Linarith
import Mathlib.Tactic.Ring

/-!
# What rounds to a number

Only the rationals of the rounding interval round to a finite number.  The pattern of a rational
tells its exponent and its nearest significand, except that a significand of one bit too many has
been carried into the exponent; then the rational lies just below a power of two.
-/

namespace GraphQLText

/-! ## The nearest natural number -/

theorem Decimal.value_nonneg (d : Decimal) : 0 ≤ d.value :=
  Rat.mul_nonneg Rat.natCast_nonneg (Rat.zpow_nonneg (by decide))

theorem IsNearest.mul {n : Nat} {unit x : Rat} (h : IsNearest n 1 (x / unit)) (hunit : 0 < unit) :
    IsNearest n unit x := by
  have hquotient : x = x / unit * unit := (Rat.div_mul_cancel (Rat.ne_of_gt hunit)).symm
  obtain ⟨hlower, hupper, hinside⟩ := h
  generalize x / unit = q at *
  subst hquotient
  constructor
  · have hmul := Rat.mul_le_mul_of_nonneg_right hlower (Rat.le_of_lt hunit)
    linarith
  · have hmul := Rat.mul_le_mul_of_nonneg_right hupper (Rat.le_of_lt hunit)
    linarith
  · intro hodd
    obtain ⟨habove, hbelow⟩ := hinside hodd
    have hmulAbove := Rat.mul_lt_mul_of_pos_right habove hunit
    have hmulBelow := Rat.mul_lt_mul_of_pos_right hbelow hunit
    constructor
    · linarith
    · linarith

theorem isNearest_roundHalfEven {x : Rat} (hx : 0 ≤ x) : IsNearest (roundHalfEven x) 1 x := by
  obtain ⟨hfloor, hnext⟩ := floor_toNat_le hx
  unfold roundHalfEven
  dsimp only
  generalize x.floor.toNat = below at *
  have hsucc : ((below + 1 : Nat) : Rat) = below + 1 := Rat.natCast_add below 1
  split
  · next hlow => exact ⟨by linarith, by linarith, fun _ => ⟨by linarith, by linarith⟩⟩
  · next hlow =>
      split
      · next hhigh => exact ⟨by linarith, by linarith, fun _ => ⟨by linarith, by linarith⟩⟩
      · next hhigh =>
          -- The rational lies in the middle, and an odd number is never taken.
          split
          · next heven => exact ⟨by linarith, by linarith, fun hodd => by omega⟩
          · next heven => exact ⟨by linarith, by linarith, fun hodd => by omega⟩

/-- No multiple of the unit is nearer than the nearest one, and another is as near only if the
nearest one is even. -/
theorem IsNearest.abs_sub_le {n : Nat} {unit v : Rat} (h : IsNearest n unit v)
    (hunit : 0 < unit) (m : Nat) :
    |v - n * unit| ≤ |v - m * unit| ∧
      (|v - n * unit| = |v - m * unit| → m = n ∨ n % 2 = 0) := by
  have hnear : |v - n * unit| ≤ unit / 2 :=
    abs_le.mpr ⟨by linarith [h.lower], by linarith [h.upper]⟩
  have hfar : m ≠ n → unit / 2 ≤ |v - m * unit| := by
    intro hne
    rcases Nat.lt_or_gt_of_ne hne with hlt | hgt
    · have hcast : (m + 1 : Rat) ≤ n := by exact_mod_cast hlt
      have hmul := Rat.mul_le_mul_of_nonneg_right hcast (Rat.le_of_lt hunit)
      exact le_abs.mpr (Or.inl (by linarith [h.lower]))
    · have hcast : (n + 1 : Rat) ≤ m := by exact_mod_cast hgt
      have hmul := Rat.mul_le_mul_of_nonneg_right hcast (Rat.le_of_lt hunit)
      exact le_abs.mpr (Or.inr (by linarith [h.upper]))
  by_cases hne : m = n
  · rw [hne]
    exact ⟨le_refl _, fun _ => Or.inl rfl⟩
  · refine ⟨le_trans hnear (hfar hne), fun htie => Or.inr ?_⟩
    by_contra hodd
    obtain ⟨habove, hbelow⟩ := h.inside (by omega)
    have hnearer : |v - n * unit| < unit / 2 := abs_lt.mpr ⟨by linarith, by linarith⟩
    have hfarther := hfar hne
    linarith

namespace BinaryFormat

variable {f : BinaryFormat}

/-- The pattern of a positive rational is made from an exponent and its nearest significand. -/
theorem exists_isNearest {v : Rat} (hv : 0 < v) :
    ∃ e n, f.leastExponent ≤ e ∧ v < (2 : Rat) ^ (e + f.fractionBits + 1) ∧
      (e = f.leastExponent ∨ (2 : Rat) ^ (e + f.fractionBits) ≤ v) ∧
      IsNearest n ((2 : Rat) ^ e) v ∧
      f.roundedPattern v = min f.infinityPattern
        ((e - f.leastExponent).toNat <<< f.fractionBits + n) := by
  obtain ⟨hle, hlt⟩ := leadingPower_spec hv
  have hone : (1 : Rat) ≤ 2 := by decide
  obtain ⟨e, he⟩ : ∃ e, e = max f.leastExponent (leadingPower v - f.fractionBits) := ⟨_, rfl⟩
  have hunit : (0 : Rat) < (2 : Rat) ^ e := Rat.zpow_pos (by decide)
  have hquotient : 0 ≤ v / (2 : Rat) ^ e := div_nonneg (Rat.le_of_lt hv) (Rat.le_of_lt hunit)
  have hleast : f.leastExponent ≤ e := by omega
  have hupper : v < (2 : Rat) ^ (e + f.fractionBits + 1) :=
    lt_of_lt_of_le hlt (zpow_le_zpow_right₀ hone (by omega))
  have hlower : e = f.leastExponent ∨ (2 : Rat) ^ (e + f.fractionBits) ≤ v := by
    rcases Int.le_total (leadingPower v - f.fractionBits) f.leastExponent with hsmall | hlarge
    · left
      omega
    · right
      exact le_trans (zpow_le_zpow_right₀ hone (by omega)) hle
  have hnearest := (isNearest_roundHalfEven hquotient).mul hunit
  exact ⟨e, _, hleast, hupper, hlower, hnearest,
    roundedPattern_eq hv hleast hupper hlower hnearest⟩

theorem infinityPattern_lt (f : BinaryFormat) :
    f.infinityPattern < 1 <<< (f.exponentBits + f.fractionBits) := by
  have hpos : 0 < 1 <<< f.exponentBits := by
    rw [Nat.one_shiftLeft]
    exact Nat.two_pow_pos _
  rw [infinityPattern, Nat.shiftLeft_add, Nat.shiftLeft_eq, Nat.shiftLeft_eq (1 <<< _)]
  exact Nat.mul_lt_mul_of_pos_right (by omega) (Nat.two_pow_pos _)

theorem roundedPattern_le (f : BinaryFormat) (v : Rat) :
    f.roundedPattern v ≤ f.infinityPattern := by
  unfold roundedPattern
  dsimp only
  split
  · exact Nat.zero_le _
  · exact Nat.min_le_left _ _

end BinaryFormat

section Significands

variable {n p : Nat} {e : Int} {v : Rat} (h : IsNearest n ((2 : Rat) ^ e) v)

include h

/-- Rounding up reaches the next power of two at most. -/
theorem IsNearest.le_of_lt_zpow (hv : v < (2 : Rat) ^ (e + p + 1)) : n ≤ 2 * 1 <<< p := by
  have hunit : (0 : Rat) < (2 : Rat) ^ e := Rat.zpow_pos (by decide)
  rw [Rat.zpow_add_one (by decide), Binary.zpow_add_natCast] at hv
  apply Nat.le_of_not_lt
  intro hlarge
  have hcast := Rat.natCast_le_natCast.mpr hlarge
  push_cast at hcast
  have hmul := Rat.mul_le_mul_of_nonneg_right hcast (Rat.le_of_lt hunit)
  have hlower := h.lower
  linarith

/-- Rounding down stays at the power of two at least. -/
theorem IsNearest.le_of_zpow_le (hv : (2 : Rat) ^ (e + p) ≤ v) : 1 <<< p ≤ n := by
  have hunit : (0 : Rat) < (2 : Rat) ^ e := Rat.zpow_pos (by decide)
  rw [Binary.zpow_add_natCast] at hv
  apply Nat.le_of_not_lt
  intro hsmall
  have hcast : (n + 1 : Rat) ≤ (1 <<< p : Nat) := by exact_mod_cast hsmall
  have hmul := Rat.mul_le_mul_of_nonneg_right hcast (Rat.le_of_lt hunit)
  have hupper := h.upper
  linarith

end Significands

/-- An exponent and a significand that make up the same pattern are the same, unless the one
significand has a bit too many, which the other exponent has taken over. -/
theorem eq_or_carry {unit i j m n : Nat} (hunit : 0 < unit) (heq : i * unit + n = j * unit + m)
    (hn : n ≤ 2 * unit) (hi : i = 0 ∨ unit ≤ n) (hm : m < 2 * unit) (hj : j = 0 ∨ unit ≤ m) :
    i = j ∧ n = m ∨ j = i + 1 ∧ n = 2 * unit ∧ m = unit := by
  rcases Nat.lt_trichotomy i j with hlt | rfl | hgt
  · obtain ⟨k, rfl⟩ := Nat.exists_eq_add_of_lt hlt
    rw [Nat.add_mul, Nat.add_mul, Nat.one_mul] at heq
    have hk : k * unit = 0 := by omega
    rcases Nat.mul_eq_zero.mp hk with rfl | rfl
    · right
      omega
    · omega
  · left
    omega
  · obtain ⟨k, rfl⟩ := Nat.exists_eq_add_of_lt hgt
    rw [Nat.add_mul, Nat.add_mul, Nat.one_mul] at heq
    omega

namespace Binary

variable {f : BinaryFormat} {x : Binary f}

theorem isZero_of_fields_eq_zero (h : x.fields = 0) : x.isZero = true := by
  have hexponent : x.exponentField.toNat = 0 := by
    have hshift : x.exponentField.toNat <<< f.fractionBits = 0 := Nat.eq_zero_of_add_eq_zero_right h
    exact Nat.shiftLeft_eq_zero_iff.mp hshift
  have hfraction : x.fractionField.toNat = 0 := Nat.eq_zero_of_add_eq_zero_left h
  rw [isZero, Bool.and_eq_true]
  refine ⟨isSubnormal_eq_true_iff.mpr hexponent, ?_⟩
  rw [beq_iff_eq]
  exact BitVec.eq_of_toNat_eq hfraction

theorem magnitude_of_isZero (h : x.isZero = true) : x.magnitude = 0 := by
  rw [isZero, Bool.and_eq_true, beq_iff_eq] at h
  rw [magnitude, significand_of_isSubnormal h.1, h.2]
  exact zero_mul _

/-- The significand of a number that does not have the least exponent starts with a one. -/
theorem exponent_eq_or_le_significand (x : Binary f) :
    (x.exponent - f.leastExponent).toNat = 0 ∨ 1 <<< f.fractionBits ≤ x.significand := by
  cases h : x.isSubnormal with
  | true =>
      left
      rw [exponent, isSubnormal_eq_true_iff.mp h]
      omega
  | false =>
      right
      rw [significand_of_not_isSubnormal h]
      exact Nat.le_add_right _ _

theorem even_one_shiftLeft {n : Nat} (h : 0 < n) : 1 <<< n % 2 = 0 := by
  cases n with
  | zero => omega
  | succ n =>
      rw [Nat.shiftLeft_succ]
      omega

/-- A rational with the exponent of a number, and with its significand as the nearest one, lies in
the rounding interval. -/
theorem contains_of_isNearest {v : Rat}
    (hnearest : IsNearest x.significand ((2 : Rat) ^ x.exponent) v)
    (hlower : x.exponent = f.leastExponent ∨ (2 : Rat) ^ (x.exponent + f.fractionBits) ≤ v) :
    x.roundingInterval.contains v = true := by
  have hunit : (0 : Rat) < (2 : Rat) ^ x.exponent := Rat.zpow_pos (by decide)
  have hupper : x.roundingInterval.upper = x.magnitude + (2 : Rat) ^ x.exponent / 2 := rfl
  rw [Interval.contains_iff, hupper]
  have hodd : x.roundingInterval.isClosed = false → x.significand % 2 = 1 := by
    intro hopen
    have hne : (x.significand % 2 == 0) = false := hopen
    rw [beq_eq_false_iff_ne] at hne
    omega
  by_cases hedge : x.fractionField.toNat = 0 ∧ 1 < x.exponentField.toNat
  · obtain ⟨hfraction, hfield⟩ := hedge
    have hpower : x.magnitude ≤ v := by
      rw [magnitude_of_powerOfTwo hfraction hfield]
      apply hlower.resolve_left
      rw [exponent]
      omega
    rw [roundingInterval_lower_of_powerOfTwo hfraction hfield]
    refine ⟨by linarith, hnearest.upper, fun hopen => ⟨by linarith, ?_⟩⟩
    exact (hnearest.inside (hodd hopen)).2
  · rw [roundingInterval_lower_of_not_powerOfTwo hedge]
    exact ⟨hnearest.lower, hnearest.upper, fun hopen => hnearest.inside (hodd hopen)⟩

theorem magnitude_of_carry {e : Int} (hexponent : x.exponent = e + 1)
    (hsignificand : x.significand = 1 <<< f.fractionBits) :
    x.magnitude = (2 * 1 <<< f.fractionBits : Nat) * (2 : Rat) ^ e := by
  rw [magnitude, hexponent, hsignificand, Rat.zpow_add_one (by decide)]
  push_cast
  ring

/-- A rational whose significand is rounded up to a power of two lies in the rounding interval of
this power. -/
theorem contains_of_carry {v : Rat} {e : Int} (hp : 0 < f.fractionBits)
    (hleast : f.leastExponent ≤ e) (hexponent : x.exponent = e + 1)
    (hsignificand : x.significand = 1 <<< f.fractionBits)
    (hnearest : IsNearest (2 * 1 <<< f.fractionBits) ((2 : Rat) ^ e) v)
    (hupper : v < (2 : Rat) ^ (e + f.fractionBits + 1)) :
    x.roundingInterval.contains v = true := by
  have hfield : 1 < x.exponentField.toNat := by
    rw [exponent] at hexponent
    omega
  have hfraction : x.fractionField.toNat = 0 := by
    rw [significand_of_not_isSubnormal (isSubnormal_of_one_lt hfield)] at hsignificand
    omega
  have hmagnitude := magnitude_of_powerOfTwo hfraction hfield
  have hunit : (2 : Rat) ^ x.exponent = (2 : Rat) ^ e * 2 := by
    rw [hexponent, Rat.zpow_add_one (by decide)]
  have hpos : (0 : Rat) < (2 : Rat) ^ e := Rat.zpow_pos (by decide)
  have hclosed : x.roundingInterval.isClosed = true := by
    have heven : x.significand % 2 = 0 := hsignificand ▸ even_one_shiftLeft hp
    exact beq_iff_eq.mpr heven
  have hbelow : v < x.magnitude := by
    have hnext : x.exponent + f.fractionBits = e + f.fractionBits + 1 := by omega
    rwa [hmagnitude, hnext]
  have habove : x.magnitude - (2 : Rat) ^ e / 2 ≤ v := by
    rw [magnitude_of_carry hexponent hsignificand]
    exact hnearest.lower
  have hceiling : x.roundingInterval.upper = x.magnitude + (2 : Rat) ^ x.exponent / 2 := rfl
  rw [Interval.contains_iff, roundingInterval_lower_of_powerOfTwo hfraction hfield, hceiling, hunit]
  refine ⟨by linarith, by linarith, fun hopen => ?_⟩
  rw [hclosed] at hopen
  cases hopen

/-- The exponent and the nearest significand of a positive rational with the pattern of a number are
those of the number, or make up the power of two that the number is. -/
theorem exists_isNearest_of_roundedPattern_eq (hfinite : x.isFinite = true) {v : Rat} (hv : 0 < v)
    (h : f.roundedPattern v = x.fields) :
    ∃ e n, f.leastExponent ≤ e ∧ v < (2 : Rat) ^ (e + f.fractionBits + 1) ∧
      (e = f.leastExponent ∨ (2 : Rat) ^ (e + f.fractionBits) ≤ v) ∧
      IsNearest n ((2 : Rat) ^ e) v ∧
      (x.exponent = e ∧ x.significand = n ∨
        x.exponent = e + 1 ∧ x.significand = 1 <<< f.fractionBits ∧
          n = 2 * 1 <<< f.fractionBits) := by
  obtain ⟨e, n, hleast, hupper, hlower, hnearest, hpattern⟩ :=
    BinaryFormat.exists_isNearest (f := f) hv
  refine ⟨e, n, hleast, hupper, hlower, hnearest, ?_⟩
  have hbits : (e - f.leastExponent).toNat <<< f.fractionBits + n =
      (x.exponent - f.leastExponent).toNat <<< f.fractionBits + x.significand := by
    have hlt := fields_lt_infinityPattern hfinite
    rw [shift_exponent_add_significand]
    omega
  have hexponent := x.leastExponent_le_exponent
  have hleading : (e - f.leastExponent).toNat = 0 ∨ 1 <<< f.fractionBits ≤ n := by
    rcases hlower with heq | hpower
    · left
      omega
    · exact Or.inr (hnearest.le_of_zpow_le hpower)
  rw [Nat.shiftLeft_eq, Nat.shiftLeft_eq, ← Nat.one_shiftLeft] at hbits
  have hunit : 0 < 1 <<< f.fractionBits :=
    Nat.lt_of_le_of_lt (Nat.zero_le _) x.fractionField_toNat_lt
  rcases eq_or_carry hunit hbits (hnearest.le_of_lt_zpow hupper) hleading x.significand_lt
    x.exponent_eq_or_le_significand with ⟨hsame, hn⟩ | ⟨hnext, hn, hsignificand⟩
  · exact Or.inl ⟨by omega, hn.symm⟩
  · exact Or.inr ⟨by omega, hsignificand, hn⟩

theorem isZero_of_roundedPattern_zero (h : f.roundedPattern 0 = x.fields) : x.isZero = true := by
  have hzero : f.roundedPattern 0 = 0 := if_pos rfl
  rw [hzero] at h
  exact isZero_of_fields_eq_zero h.symm

/-- A rational with the pattern of a number lies in the rounding interval of the number. -/
theorem contains_of_roundedPattern_eq (hp : 0 < f.fractionBits) (hzero : x.isZero = false)
    (hfinite : x.isFinite = true) {v : Rat} (hv : 0 ≤ v) (h : f.roundedPattern v = x.fields) :
    x.roundingInterval.contains v = true := by
  rcases lt_or_eq_of_le hv with hpos | rfl
  · obtain ⟨e, n, hleast, hupper, hlower, hnearest, hsame | hcarry⟩ :=
      exists_isNearest_of_roundedPattern_eq hfinite hpos h
    · obtain ⟨rfl, rfl⟩ := hsame
      exact contains_of_isNearest hnearest hlower
    · obtain ⟨hexponent, hsignificand, rfl⟩ := hcarry
      exact contains_of_carry hp hleast hexponent hsignificand hnearest hupper
  · rw [isZero_of_roundedPattern_zero h] at hzero
    cases hzero

/-- A decimal that is read as a number, with either sign, has the pattern of the number. -/
theorem roundedPattern_of_round_eq {d : Decimal} {isNegative : Bool}
    (h : d.round f isNegative = x) : f.roundedPattern d.value = x.fields := by
  have hle := f.roundedPattern_le d.value
  have hlt := f.infinityPattern_lt
  have hwidth : 2 ^ f.width = 2 * 1 <<< (f.exponentBits + f.fractionBits) := by
    unfold BinaryFormat.width
    rw [Nat.add_assoc, Nat.pow_add, Nat.pow_one, Nat.one_shiftLeft]
  rw [fields_eq_mod, ← h, Decimal.round]
  dsimp only
  have hpattern := Nat.mod_eq_of_lt (Nat.lt_of_le_of_lt hle hlt)
  rw [BitVec.toNat_ofNat, hwidth, Nat.mod_mul_left_mod]
  cases isNegative with
  | true => rw [if_pos rfl, Nat.add_mod_left, hpattern]
  | false => rw [if_neg Bool.false_ne_true, Nat.zero_add, hpattern]

/-! ## The nearest number -/

/-- No number of the format is nearer to the rational, and another one is as near only if the
significand of the number is even. -/
def IsNearestTo (x : Binary f) (v : Rat) : Prop :=
  ∀ y : Binary f, |v - x.magnitude| ≤ |v - y.magnitude| ∧
    (|v - x.magnitude| = |v - y.magnitude| → y.magnitude = x.magnitude ∨ x.significand % 2 = 0)

/-- A number is a multiple of each unit that is not larger than its own. -/
theorem exists_magnitude_eq {e : Int} (h : e ≤ x.exponent) :
    ∃ m : Nat, x.magnitude = m * (2 : Rat) ^ e := by
  obtain ⟨i, hi⟩ := Int.le.dest h
  refine ⟨x.significand * 2 ^ i, ?_⟩
  rw [magnitude, ← hi, Rat.zpow_add (by decide), Rat.zpow_natCast]
  push_cast
  ring

/-- A number with a smaller unit lies below the power of two at which the larger unit starts. -/
theorem magnitude_lt_of_exponent_lt {e : Int} (h : x.exponent < e) :
    x.magnitude < (1 <<< f.fractionBits : Nat) * (2 : Rat) ^ e := by
  have hunit : (0 : Rat) < (2 : Rat) ^ x.exponent := Rat.zpow_pos (by decide)
  have hlt := x.magnitude_add_lt
  have hle : (2 : Rat) ^ (x.exponent + f.fractionBits + 1) ≤ (2 : Rat) ^ (e + f.fractionBits) :=
    zpow_le_zpow_right₀ (by decide) (by omega)
  rw [← zpow_add_natCast]
  linarith

/-- The number with the pattern of a positive rational is the nearest one. -/
theorem isNearestTo_of_pos (hp : 0 < f.fractionBits) (hfinite : x.isFinite = true) {v : Rat}
    (hv : 0 < v) (h : f.roundedPattern v = x.fields) : x.IsNearestTo v := by
  intro y
  obtain ⟨e, n, -, -, hlower, hnearest, hnumber⟩ :=
    exists_isNearest_of_roundedPattern_eq hfinite hv h
  have hunit : (0 : Rat) < (2 : Rat) ^ e := Rat.zpow_pos (by decide)
  have hmagnitude : x.magnitude = n * (2 : Rat) ^ e := by
    rcases hnumber with ⟨hexponent, hsignificand⟩ | ⟨hexponent, hsignificand, rfl⟩
    · rw [magnitude, hexponent, hsignificand]
    · exact magnitude_of_carry hexponent hsignificand
  have heven : n % 2 = 0 → x.significand % 2 = 0 := by
    intro hn
    rcases hnumber with ⟨-, hsignificand⟩ | ⟨-, hsignificand, -⟩
    · rw [hsignificand, hn]
    · rw [hsignificand, even_one_shiftLeft hp]
  rw [hmagnitude]
  rcases Int.lt_or_le y.exponent e with hsmall | hlarge
  · have hbelow := magnitude_lt_of_exponent_lt hsmall
    have hpower : (1 <<< f.fractionBits : Nat) * (2 : Rat) ^ e ≤ v := by
      have hexponent := y.leastExponent_le_exponent
      rw [← zpow_add_natCast]
      exact hlower.resolve_left (by omega)
    have hnearer := (hnearest.abs_sub_le hunit (1 <<< f.fractionBits)).1
    rw [abs_of_nonneg (sub_nonneg.mpr hpower)] at hnearer
    have hdistance : |v - y.magnitude| = v - y.magnitude := abs_of_nonneg (by linarith)
    have hfarther : |v - n * (2 : Rat) ^ e| < |v - y.magnitude| := by
      rw [hdistance]
      linarith
    exact ⟨le_of_lt hfarther, fun htie => absurd htie (ne_of_lt hfarther)⟩
  · obtain ⟨m, hm⟩ := exists_magnitude_eq hlarge
    obtain ⟨hle, htie⟩ := hnearest.abs_sub_le hunit m
    rw [hm]
    refine ⟨hle, fun heq => ?_⟩
    rcases htie heq with rfl | hn
    · exact Or.inl rfl
    · exact Or.inr (heven hn)

/-- A decimal is read as the number nearest to it. -/
theorem isNearestTo_of_round_eq {d : Decimal} {isNegative : Bool} (hp : 0 < f.fractionBits)
    (hfinite : x.isFinite = true) (h : d.round f isNegative = x) : x.IsNearestTo d.value := by
  have hpattern := roundedPattern_of_round_eq h
  rcases lt_or_eq_of_le d.value_nonneg with hpos | hzero
  · exact isNearestTo_of_pos hp hfinite hpos hpattern
  · intro y
    rw [← hzero] at hpattern ⊢
    rw [magnitude_of_isZero (isZero_of_roundedPattern_zero hpattern), sub_zero, abs_zero]
    refine ⟨abs_nonneg _, fun htie => Or.inl ?_⟩
    rw [zero_sub, abs_neg] at htie
    exact abs_eq_zero.mp htie.symm

end Binary

end GraphQLText

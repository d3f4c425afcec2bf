import GraphQLText.Proofs.Number.RoundingInterval
import GraphQLText.Proofs.Number.Scale

/-!
# Rounding back

Each rational in the rounding interval of a finite number rounds to that number.  Next to a power of
two there are two cases: a rational below the power has a smaller leading power than the number, and
its significand rounds up and carries into the exponent.
-/

namespace GraphQLText

/-! ## The nearest natural number -/

theorem floor_toNat_le {x : Rat} (hx : 0 ≤ x) :
    (x.floor.toNat : Rat) ≤ x ∧ x < x.floor.toNat + 1 := by
  have hfloor : ((x.floor.toNat : Int) : Rat) = x.floor := by
    rw [Int.toNat_of_nonneg (Rat.le_floor_iff.mpr hx)]
  have hlower := Rat.floor_le x
  have hupper := Rat.lt_floor_add_one x
  rw [Rat.intCast_add] at hupper
  rw [← Rat.intCast_natCast, hfloor]
  exact ⟨hlower, hupper⟩

/-- A rational is up to half a unit away from `n` units, and less than half a unit if `n` is odd, as
a tie goes to the even number. -/
structure IsNearest (n : Nat) (unit x : Rat) : Prop where
  lower : n * unit - unit / 2 ≤ x
  upper : x ≤ n * unit + unit / 2
  inside : n % 2 = 1 → n * unit - unit / 2 < x ∧ x < n * unit + unit / 2

/-- The unit is of no account. -/
theorem IsNearest.div {n : Nat} {unit x : Rat} (h : IsNearest n unit x) (hunit : 0 < unit) :
    IsNearest n 1 (x / unit) := by
  have hquotient : x = x / unit * unit := (Rat.div_mul_cancel (Rat.ne_of_gt hunit)).symm
  have hnonneg := Rat.le_of_lt hunit
  obtain ⟨hlower, hupper, hinside⟩ := h
  generalize x / unit = q at *
  subst hquotient
  constructor
  · exact Rat.le_of_mul_le_mul_right (by grind) hunit
  · exact Rat.le_of_mul_le_mul_right (by grind) hunit
  · intro hodd
    obtain ⟨habove, hbelow⟩ := hinside hodd
    constructor
    · exact Rat.lt_of_mul_lt_mul_right (by grind) hnonneg
    · exact Rat.lt_of_mul_lt_mul_right (by grind) hnonneg

theorem roundHalfEven_eq {x : Rat} {n : Nat} (hx : 0 ≤ x) (h : IsNearest n 1 x) :
    roundHalfEven x = n := by
  obtain ⟨hfloor, hnext⟩ := floor_toNat_le hx
  obtain ⟨hlower, hupper, hinside⟩ := h
  unfold roundHalfEven
  dsimp only
  generalize x.floor.toNat = below at *
  have hcases : n = below ∨ n = below + 1 := by
    have hle : below < n + 1 := by
      rw [← Rat.natCast_lt_natCast, Rat.natCast_add]
      grind
    have hge : n < below + 2 := by
      rw [← Rat.natCast_lt_natCast, Rat.natCast_add]
      grind
    omega
  rcases hcases with rfl | rfl
  · split
    · rfl
    · split
      · grind
      · split
        · rfl
        · grind
  · rw [Rat.natCast_add] at *
    split
    · grind
    · split
      · rfl
      · split
        · grind
        · rfl

namespace BinaryFormat

variable {f : BinaryFormat}

/-- The exponent of a pattern is recovered from the leading power; the least exponent is kept below
it as well. -/
theorem max_leadingPower_eq {x : Rat} {e : Int} (hx : 0 < x) (hleast : f.leastExponent ≤ e)
    (hupper : x < (2 : Rat) ^ (e + f.fractionBits + 1))
    (hlower : e = f.leastExponent ∨ (2 : Rat) ^ (e + f.fractionBits) ≤ x) :
    max f.leastExponent (leadingPower x - f.fractionBits) = e := by
  obtain ⟨hle, hlt⟩ := leadingPower_spec hx
  have htwo : (1 : Rat) < 2 := by decide
  have hbelow := (zpow_lt_zpow_iff_right₀ htwo).mp (lt_of_le_of_lt hle hupper)
  rcases hlower with hexponent | hpower
  · omega
  · have habove := (zpow_lt_zpow_iff_right₀ htwo).mp (lt_of_le_of_lt hpower hlt)
    omega

/-- The pattern of a rational whose exponent and whose nearest significand are known. -/
theorem roundedPattern_eq {x : Rat} {e : Int} {n : Nat} (hx : 0 < x) (hleast : f.leastExponent ≤ e)
    (hupper : x < (2 : Rat) ^ (e + f.fractionBits + 1))
    (hlower : e = f.leastExponent ∨ (2 : Rat) ^ (e + f.fractionBits) ≤ x)
    (hnearest : IsNearest n ((2 : Rat) ^ e) x) :
    f.roundedPattern x = min f.infinityPattern
      ((e - f.leastExponent).toNat <<< f.fractionBits + n) := by
  have hunit : (0 : Rat) < (2 : Rat) ^ e := Rat.zpow_pos (by decide)
  have hquotient : 0 ≤ x / (2 : Rat) ^ e := div_nonneg (Rat.le_of_lt hx) (Rat.le_of_lt hunit)
  unfold roundedPattern
  dsimp only
  rw [if_neg (Rat.ne_of_gt hx), max_leadingPower_eq hx hleast hupper hlower,
    roundHalfEven_eq hquotient (hnearest.div hunit)]

end BinaryFormat

/-! ## The layout of the bits -/

namespace Binary

variable {f : BinaryFormat}

/-- The pattern without its sign. -/
def fields (x : Binary f) : Nat :=
  x.exponentField.toNat <<< f.fractionBits + x.fractionField.toNat

theorem fields_eq_mod (x : Binary f) :
    x.fields = x.bits.toNat % (1 <<< (f.exponentBits + f.fractionBits)) := by
  rw [fields, exponentField, fractionField, BitVec.extractLsb'_toNat, BitVec.extractLsb'_toNat,
    Nat.shiftRight_zero, Nat.shiftRight_eq_div_pow, Nat.shiftLeft_eq, Nat.one_shiftLeft,
    Nat.pow_add, Nat.mul_comm (2 ^ f.exponentBits), ← Nat.mod_mul_right_div_self]
  have hdiv := Nat.div_add_mod' (x.bits.toNat % (2 ^ f.fractionBits * 2 ^ f.exponentBits))
    (2 ^ f.fractionBits)
  rwa [Nat.mod_mul_right_mod] at hdiv

/-- The first bit is set in the upper half of the patterns. -/
theorem isNegative_eq_decide (x : Binary f) :
    x.isNegative = decide (1 <<< (f.exponentBits + f.fractionBits) ≤ x.bits.toNat) := by
  have hwidth : f.width - 1 = f.exponentBits + f.fractionBits := by
    unfold BinaryFormat.width
    omega
  rw [isNegative, BitVec.msb_eq_decide, hwidth, Nat.one_shiftLeft]

theorem toNat_bits_lt (x : Binary f) :
    x.bits.toNat < 2 * (1 <<< (f.exponentBits + f.fractionBits)) := by
  have hwidth : 2 ^ f.width = 2 * 2 ^ (f.exponentBits + f.fractionBits) := by
    unfold BinaryFormat.width
    rw [Nat.add_assoc, Nat.pow_add, Nat.pow_one]
  rw [Nat.one_shiftLeft, ← hwidth]
  exact x.bits.isLt

/-- The bits of a number are its sign and its two fields. -/
theorem toNat_bits (x : Binary f) :
    x.bits.toNat =
      (if x.isNegative then 1 <<< (f.exponentBits + f.fractionBits) else 0) + x.fields := by
  have hlt := x.toNat_bits_lt
  rw [fields_eq_mod]
  cases hsign : x.isNegative with
  | true =>
      rw [isNegative_eq_decide, decide_eq_true_eq] at hsign
      rw [if_pos rfl, Nat.mod_eq_sub_mod hsign, Nat.mod_eq_of_lt (by omega)]
      omega
  | false =>
      rw [isNegative_eq_decide, decide_eq_false_iff_not, Nat.not_le] at hsign
      rw [if_neg Bool.false_ne_true, Nat.mod_eq_of_lt hsign, Nat.zero_add]

theorem succ_shiftLeft (a n : Nat) : (a + 1) <<< n = a <<< n + 1 <<< n := by
  rw [Nat.shiftLeft_eq, Nat.shiftLeft_eq, Nat.succ_mul, Nat.one_shiftLeft]

theorem fractionField_toNat_lt (x : Binary f) :
    x.fractionField.toNat < 1 <<< f.fractionBits := by
  rw [Nat.one_shiftLeft]
  exact x.fractionField.isLt

theorem isSubnormal_eq_true_iff {x : Binary f} :
    x.isSubnormal = true ↔ x.exponentField.toNat = 0 := by
  rw [isSubnormal, beq_iff_eq, ← BitVec.toNat_inj]
  rfl

theorem isSubnormal_of_one_lt {x : Binary f} (h : 1 < x.exponentField.toNat) :
    x.isSubnormal = false := by
  rw [Bool.eq_false_iff, Ne, isSubnormal_eq_true_iff]
  omega

theorem significand_of_isSubnormal {x : Binary f} (h : x.isSubnormal = true) :
    x.significand = x.fractionField.toNat := by
  simp [significand, h]

/-- The significand of a normal number starts with a one. -/
theorem significand_of_not_isSubnormal {x : Binary f} (h : x.isSubnormal = false) :
    x.significand = 1 <<< f.fractionBits + x.fractionField.toNat := by
  have hor := Nat.shiftLeft_add_eq_or_of_lt x.fractionField.isLt 1
  rw [significand, h, BitVec.toNat_append, hor]
  rfl

theorem significand_lt (x : Binary f) : x.significand < 2 * (1 <<< f.fractionBits) := by
  have hlt := x.fractionField_toNat_lt
  cases h : x.isSubnormal with
  | true =>
      rw [significand_of_isSubnormal h]
      omega
  | false =>
      rw [significand_of_not_isSubnormal h]
      omega

/-- The exponent and the significand make up the two fields. -/
theorem shift_exponent_add_significand (x : Binary f) :
    (x.exponent - f.leastExponent).toNat <<< f.fractionBits + x.significand = x.fields := by
  have hexponent : (x.exponent - f.leastExponent).toNat = x.exponentField.toNat - 1 := by
    rw [exponent]
    omega
  rw [hexponent, fields]
  cases h : x.isSubnormal with
  | true => rw [significand_of_isSubnormal h, isSubnormal_eq_true_iff.mp h]
  | false =>
      have hfield : x.exponentField.toNat - 1 + 1 = x.exponentField.toNat := by
        have hne : x.exponentField.toNat ≠ 0 := by
          rw [Ne, ← isSubnormal_eq_true_iff, h]
          exact Bool.false_ne_true
        omega
      rw [significand_of_not_isSubnormal h, ← Nat.add_assoc, ← succ_shiftLeft, hfield]

/-- The two fields of a finite number stay below the pattern of the infinity. -/
theorem fields_lt_infinityPattern {x : Binary f} (h : x.isFinite = true) :
    x.fields < f.infinityPattern := by
  have hfraction := x.fractionField_toNat_lt
  have hfield : x.exponentField.toNat + 1 ≤ (1 <<< f.exponentBits) - 1 := by
    rw [isFinite, bne_iff_ne, Ne, ← BitVec.toNat_inj, BitVec.toNat_allOnes] at h
    have hlt := x.exponentField.isLt
    rw [Nat.one_shiftLeft]
    omega
  have hshift : (x.exponentField.toNat + 1) <<< f.fractionBits ≤ f.infinityPattern := by
    rw [BinaryFormat.infinityPattern, Nat.shiftLeft_eq, Nat.shiftLeft_eq]
    exact Nat.mul_le_mul_right _ hfield
  rw [succ_shiftLeft] at hshift
  rw [fields]
  omega

/-! ## Rounding back to the number -/

/-- The power of two at which the numbers with the unit `2 ^ e` start. -/
theorem zpow_add_natCast (e : Int) (n : Nat) :
    (2 : Rat) ^ (e + n) = (1 <<< n : Nat) * (2 : Rat) ^ e := by
  have hpower : ((1 <<< n : Nat) : Rat) = (2 : Rat) ^ (n : Int) := by
    rw [Nat.one_shiftLeft, Rat.natCast_pow]
    rfl
  rw [Rat.zpow_add (by decide), hpower, Rat.mul_comm]

theorem leastExponent_le_exponent (x : Binary f) : f.leastExponent ≤ x.exponent := by
  rw [exponent]
  omega

/-- Even half a unit above a number the next power of two is not reached. -/
theorem magnitude_add_lt (x : Binary f) :
    x.magnitude + (2 : Rat) ^ x.exponent / 2 < (2 : Rat) ^ (x.exponent + f.fractionBits + 1) := by
  have hunit : (0 : Rat) < (2 : Rat) ^ x.exponent := Rat.zpow_pos (by decide)
  have hsignificand := Rat.natCast_le_natCast.mpr (Nat.succ_le_of_lt x.significand_lt)
  have hmul := Rat.mul_le_mul_of_nonneg_right hsignificand (Rat.le_of_lt hunit)
  rw [Nat.succ_eq_add_one, Rat.natCast_add, Rat.natCast_mul] at hmul
  rw [Rat.zpow_add_one (by decide), zpow_add_natCast, magnitude]
  grind

/-- A rational with the exponent of the number, and with its significand as the nearest one. -/
theorem roundedPattern_of_isNearest {x : Binary f} (hfinite : x.isFinite = true) {v : Rat}
    (hv : 0 < v) (hnearest : IsNearest x.significand ((2 : Rat) ^ x.exponent) v)
    (hexponent : x.exponent = f.leastExponent ∨
      (2 : Rat) ^ (x.exponent + f.fractionBits) ≤ v) :
    f.roundedPattern v = x.fields := by
  have hupper := lt_of_le_of_lt hnearest.upper x.magnitude_add_lt
  rw [BinaryFormat.roundedPattern_eq hv x.leastExponent_le_exponent hupper hexponent hnearest,
    shift_exponent_add_significand,
    Nat.min_eq_right (Nat.le_of_lt (fields_lt_infinityPattern hfinite))]

/-! ### Next to a power of two -/

section PowerOfTwo

variable {x : Binary f} (hfraction : x.fractionField.toNat = 0) (hfield : 1 < x.exponentField.toNat)

include hfraction hfield

theorem significand_of_powerOfTwo : x.significand = 1 <<< f.fractionBits := by
  rw [significand_of_not_isSubnormal (isSubnormal_of_one_lt hfield), hfraction, Nat.add_zero]

theorem magnitude_of_powerOfTwo :
    x.magnitude = (2 : Rat) ^ (x.exponent + f.fractionBits) := by
  rw [zpow_add_natCast, magnitude, significand_of_powerOfTwo hfraction hfield]

/-- The numbers below a power of two lie twice as close. -/
theorem roundingInterval_lower_of_powerOfTwo :
    x.roundingInterval.lower = x.magnitude - (2 : Rat) ^ x.exponent / 4 := by
  have hfractionField : x.fractionField = 0 := BitVec.eq_of_toNat_eq hfraction
  have hquarter : (2 : Rat) ^ x.exponent / 2 / 2 = (2 : Rat) ^ x.exponent / 4 := by grind
  rw [← hquarter]
  simp [roundingInterval, hfractionField, hfield]

/-- In the smaller units below a power of two the nearest significand is twice as large, and too
large by one bit; it carries into the exponent, so the pattern is that of the power. -/
theorem roundedPattern_of_carry (hfinite : x.isFinite = true) {v : Rat}
    (hlower : x.magnitude - (2 : Rat) ^ x.exponent / 4 ≤ v) (hupper : v < x.magnitude) :
    f.roundedPattern v = x.fields := by
  have hunit : (0 : Rat) < (2 : Rat) ^ x.exponent := Rat.zpow_pos (by decide)
  have hhalf : (2 : Rat) ^ (x.exponent - 1) = (2 : Rat) ^ x.exponent / 2 := by
    rw [Rat.zpow_sub_one (by decide), Rat.div_def]
  have hpower := magnitude_of_powerOfTwo hfraction hfield
  have hmagnitude : (2 : Rat) ^ x.exponent ≤ x.magnitude := by
    rw [hpower]
    exact zpow_le_zpow_right₀ (by decide) (by omega)
  have hleast : f.leastExponent ≤ x.exponent - 1 := by
    rw [exponent]
    omega
  have hnext : v < (2 : Rat) ^ (x.exponent - 1 + f.fractionBits + 1) := by
    have hexponent : x.exponent - 1 + f.fractionBits + 1 = x.exponent + f.fractionBits := by omega
    rwa [hexponent, ← hpower]
  have hprevious : (2 : Rat) ^ (x.exponent - 1 + f.fractionBits) ≤ v := by
    have hexponent : x.exponent - 1 + f.fractionBits = x.exponent + f.fractionBits - 1 := by omega
    rw [hexponent, Rat.zpow_sub_one (by decide), ← hpower]
    grind
  have hdouble : ((2 * x.significand : Nat) : Rat) * (2 : Rat) ^ (x.exponent - 1) =
      x.magnitude := by
    rw [Rat.natCast_mul, hhalf, magnitude]
    grind
  have hnearest : IsNearest (2 * x.significand) ((2 : Rat) ^ (x.exponent - 1)) v := by
    constructor
    · rw [hdouble, hhalf]
      grind
    · rw [hdouble, hhalf]
      grind
    · omega
  have hpattern : (x.exponent - 1 - f.leastExponent).toNat <<< f.fractionBits +
      2 * x.significand = x.fields := by
    have hsucc : (x.exponent - f.leastExponent).toNat =
        (x.exponent - 1 - f.leastExponent).toNat + 1 := by omega
    rw [← shift_exponent_add_significand, hsucc, succ_shiftLeft,
      ← significand_of_powerOfTwo hfraction hfield, Nat.two_mul, Nat.add_assoc]
  rw [BinaryFormat.roundedPattern_eq (by grind) hleast hnext (Or.inr hprevious) hnearest,
    hpattern, Nat.min_eq_right (Nat.le_of_lt (fields_lt_infinityPattern hfinite))]

end PowerOfTwo

/-! ### Elsewhere -/

theorem roundingInterval_lower_of_not_powerOfTwo {x : Binary f}
    (h : ¬ (x.fractionField.toNat = 0 ∧ 1 < x.exponentField.toNat)) :
    x.roundingInterval.lower = x.magnitude - (2 : Rat) ^ x.exponent / 2 := by
  have hunhalved : ¬ (x.fractionField == 0 && decide (1 < x.exponentField.toNat)) = true := by
    rw [Bool.and_eq_true, beq_iff_eq, decide_eq_true_eq, ← BitVec.toNat_inj]
    exact h
  unfold roundingInterval
  dsimp only
  rw [if_neg hunhalved]

/-- Half a unit below a normal number the leading power is the same, unless the fraction is zero. -/
theorem zpow_exponent_add_le {x : Binary f} (hnormal : x.isSubnormal = false)
    (hfraction : x.fractionField.toNat ≠ 0) :
    (2 : Rat) ^ (x.exponent + f.fractionBits) ≤ x.magnitude - (2 : Rat) ^ x.exponent / 2 := by
  have hunit : (0 : Rat) < (2 : Rat) ^ x.exponent := Rat.zpow_pos (by decide)
  have hsignificand : 1 <<< f.fractionBits + 1 ≤ x.significand := by
    rw [significand_of_not_isSubnormal hnormal]
    omega
  have hmul := Rat.mul_le_mul_of_nonneg_right (Rat.natCast_le_natCast.mpr hsignificand)
    (Rat.le_of_lt hunit)
  rw [zpow_add_natCast, magnitude]
  rw [Rat.natCast_add] at hmul
  grind

/-! ### The rounding interval -/

/-- The ends of the rounding interval belong to it only if the significand is even. -/
theorem isNearest_of_contains {x : Binary f} {v : Rat} (h : x.roundingInterval.contains v = true)
    (hlower : x.magnitude - (2 : Rat) ^ x.exponent / 2 ≤ x.roundingInterval.lower) :
    IsNearest x.significand ((2 : Rat) ^ x.exponent) v := by
  obtain ⟨hle, hge, hstrict⟩ := Interval.contains_iff.mp h
  constructor
  · exact Rat.le_trans hlower hle
  · exact hge
  · intro hodd
    have hopen : x.roundingInterval.isClosed = false := by
      simp [roundingInterval, hodd]
    obtain ⟨hlt, hgt⟩ := hstrict hopen
    exact ⟨lt_of_le_of_lt hlower hlt, hgt⟩

/-- A rational of the rounding interval has the pattern of the number. -/
theorem roundedPattern_of_contains {x : Binary f} (hzero : x.isZero = false)
    (hfinite : x.isFinite = true) {v : Rat} (h : x.roundingInterval.contains v = true) :
    f.roundedPattern v = x.fields := by
  have hunit : (0 : Rat) < (2 : Rat) ^ x.exponent := Rat.zpow_pos (by decide)
  have hle := (Interval.contains_iff.mp h).1
  have hv : 0 < v := lt_of_lt_of_le (roundingInterval_lower_pos hzero) hle
  by_cases hedge : x.fractionField.toNat = 0 ∧ 1 < x.exponentField.toNat
  · obtain ⟨hfraction, hfield⟩ := hedge
    have hlower := roundingInterval_lower_of_powerOfTwo hfraction hfield
    -- Only from the power on upwards do the rationals have the leading power of the number.
    by_cases hbelow : v < x.magnitude
    · exact roundedPattern_of_carry hfraction hfield hfinite (hlower ▸ hle) hbelow
    · apply roundedPattern_of_isNearest hfinite hv (isNearest_of_contains h (by grind))
      right
      rw [← magnitude_of_powerOfTwo hfraction hfield]
      exact Rat.not_lt.mp hbelow
  · have hlower := roundingInterval_lower_of_not_powerOfTwo hedge
    apply roundedPattern_of_isNearest hfinite hv (isNearest_of_contains h (by grind))
    by_cases hfield : 1 < x.exponentField.toNat
    · right
      have hfraction : x.fractionField.toNat ≠ 0 := fun hzero => hedge ⟨hzero, hfield⟩
      have hpower := zpow_exponent_add_le (isSubnormal_of_one_lt hfield) hfraction
      exact Rat.le_trans hpower (hlower ▸ hle)
    · left
      rw [exponent]
      omega

end Binary

/-- A decimal with the pattern of a number is read as that number. -/
theorem Decimal.round_eq {f : BinaryFormat} {x : Binary f} {d : Decimal}
    (h : f.roundedPattern d.value = x.fields) : d.round f x.isNegative = x := by
  have hbits := x.toNat_bits
  unfold Decimal.round
  dsimp only
  rw [h, ← hbits, BitVec.ofNat_toNat, BitVec.setWidth_eq]

end GraphQLText

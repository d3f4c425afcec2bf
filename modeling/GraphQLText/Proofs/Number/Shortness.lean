import GraphQLText.Lexical.Numeral
import GraphQLText.Proofs.Number.NearestPattern
import GraphQLText.Proofs.Number.ReadingBack
import Mathlib.Data.List.DropRight

/-!
# No shorter decimal

A point of the rounding interval on a coarser grid than that of the shortest decimal would have been
found before it.  If the shortest decimal had more digits than some other point of the interval, a
power of ten would lie between the two, and it would be a point of such a coarser grid.
-/

namespace GraphQLText

/-! ## Points of two grids -/

theorem natCast_mul_zpow_add_one (n : Nat) (k : Int) :
    (n : Rat) * (10 : Rat) ^ (k + 1) = (n * 10 : Nat) * (10 : Rat) ^ k := by
  rw [Rat.zpow_add_one (by decide)]
  push_cast
  ring

/-- A point of a grid is a point of each finer one, with a larger coefficient. -/
theorem exists_natCast_mul_zpow (n : Nat) {j k : Int} (h : j ≤ k) :
    ∃ m : Nat, n ≤ m ∧ (n : Rat) * (10 : Rat) ^ k = m * (10 : Rat) ^ j := by
  obtain ⟨i, rfl⟩ := Int.le.dest h
  refine ⟨n * 10 ^ i, Nat.le_mul_of_pos_right n (Nat.pow_pos (by decide)), ?_⟩
  rw [Rat.zpow_add (by decide), Rat.zpow_natCast]
  push_cast
  ring

theorem natCast_mul_zpow_inj {m n : Nat} {k : Int}
    (h : (m : Rat) * (10 : Rat) ^ k = n * (10 : Rat) ^ k) : m = n := by
  have hunit : (10 : Rat) ^ k ≠ 0 := Rat.ne_of_gt (Rat.zpow_pos (by decide))
  exact Nat.cast_injective (mul_right_cancel₀ hunit h)

/-! ## The digits that count -/

theorem Numeral.lt_pow_length_digits (n : Nat) : n < 10 ^ (digits n).length :=
  (Nat.length_toDigits_le_iff (by decide) Nat.length_toDigits_pos).mp (Nat.le_refl _)

theorem Numeral.length_digits_le_of_lt {m n : Nat} (h : m < 10 ^ (digits n).length) :
    (digits m).length ≤ (digits n).length :=
  (Nat.length_toDigits_le_iff (by decide) Nat.length_toDigits_pos).mpr h

/-- The last digit of a number. -/
theorem Numeral.exists_digits_eq_concat (n : Nat) :
    ∃ ds, digits n = ds ++ [(n % 10).digitChar] := by
  by_cases hsmall : n < 10
  · refine ⟨[], ?_⟩
    rw [digits, Nat.toDigits_of_lt_base hsmall, Nat.mod_eq_of_lt hsmall, List.nil_append]
  · exact ⟨digits (n / 10), Nat.toDigits_of_base_le (by decide) (by omega)⟩

namespace Decimal

/-- The number of digits of a decimal without the zeros at its end, which only move its exponent. -/
def significantDigits (d : Decimal) : Nat :=
  ((Numeral.digits d.coefficient).rdropWhile (· == '0')).length

theorem significantDigits_of_mod_ne_zero {d : Decimal} (h : d.coefficient % 10 ≠ 0) :
    d.significantDigits = (Numeral.digits d.coefficient).length := by
  obtain ⟨ds, hds⟩ := Numeral.exists_digits_eq_concat d.coefficient
  have hlast : ¬ ((d.coefficient % 10).digitChar == '0') = true := by
    rw [beq_iff_eq, Nat.digitChar_eq_zero]
    exact h
  rw [significantDigits, hds, List.rdropWhile_concat_neg (· == '0') _ _ hlast]

theorem significantDigits_mul_ten {n : Nat} (hn : 0 < n) (j k : Int) :
    significantDigits ⟨n * 10, j⟩ = significantDigits ⟨n, k⟩ := by
  have hdigits : Numeral.digits (n * 10) = Numeral.digits n ++ ['0'] := by
    rw [Numeral.digits, Nat.toDigits_of_base_le (by decide) (by omega),
      Nat.mul_div_cancel n (by decide), Nat.mul_mod_left]
    rfl
  rw [significantDigits, hdigits, List.rdropWhile_concat_pos _ _ _ rfl]
  rfl

theorem coefficient_of_value_eq_zero {d : Decimal} (h : d.value = 0) : d.coefficient = 0 := by
  have hunit : (10 : Rat) ^ d.exponent ≠ 0 := Rat.ne_of_gt (Rat.zpow_pos (by decide))
  exact Nat.cast_eq_zero.mp ((mul_eq_zero.mp h).resolve_right hunit)

/-- A positive decimal is the same number without the zeros at its end. -/
theorem exists_stripped {d : Decimal} (h : 0 < d.coefficient) :
    ∃ e : Decimal, e.value = d.value ∧ e.coefficient % 10 ≠ 0 ∧
      e.significantDigits = d.significantDigits := by
  obtain ⟨n, k⟩ := d
  induction n using Nat.strongRecOn generalizing k with
  | ind n ih =>
      by_cases hlast : n % 10 = 0
      · obtain ⟨m, rfl⟩ := Nat.dvd_of_mod_eq_zero hlast
        rw [Nat.mul_comm] at h ⊢
        have hm : 0 < m := Nat.pos_of_mul_pos_right h
        obtain ⟨e, hvalue, hne, hcount⟩ := ih m (by omega) (k + 1) hm
        refine ⟨e, ?_, hne, ?_⟩
        · rw [hvalue, value, value, natCast_mul_zpow_add_one]
        · rw [hcount, significantDigits_mul_ten hm]
      · exact ⟨⟨n, k⟩, rfl, hlast, rfl⟩

/-- No decimal of the same value has fewer digits than those that count. -/
theorem significantDigits_le_of_value_eq {d e : Decimal} (h : d.value = e.value) :
    d.significantDigits ≤ (Numeral.digits e.coefficient).length := by
  rcases Nat.eq_zero_or_pos d.coefficient with hzero | hpos
  · rw [significantDigits, hzero]
    exact Nat.zero_le _
  · obtain ⟨s, hvalue, hne, hcount⟩ := exists_stripped hpos
    rw [← hcount, significantDigits_of_mod_ne_zero hne]
    apply Numeral.length_digits_le_of_lt
    apply Nat.lt_of_le_of_lt ?_ (Numeral.lt_pow_length_digits e.coefficient)
    rw [← hvalue, value, value] at h
    rcases Int.lt_or_le s.exponent e.exponent with hlt | hle
    · -- On the finer grid the coefficient would be a multiple of ten.
      obtain ⟨m, -, hm⟩ := exists_natCast_mul_zpow e.coefficient (Int.add_one_le_iff.mpr hlt)
      rw [hm, natCast_mul_zpow_add_one] at h
      have hmultiple := natCast_mul_zpow_inj h
      omega
    · obtain ⟨m, hle', hm⟩ := exists_natCast_mul_zpow s.coefficient hle
      rw [hm] at h
      have heq := natCast_mul_zpow_inj h
      omega

end Decimal

/-! ## The first grid with a point -/

namespace Binary

variable {f : BinaryFormat} {x : Binary f}

/-- No point of the rounding interval lies on a grid coarser than the first one searched. -/
theorem exponent_le_decadeAbove (hzero : x.isZero = false) {n : Nat} {k : Int}
    (hpoint : x.roundingInterval.contains (n * (10 : Rat) ^ k) = true) :
    k ≤ decadeAbove x.magnitude := by
  have hn := Interval.coefficient_pos_of_contains (roundingInterval_lower_pos hzero) hpoint
  have hunit : (0 : Rat) < (10 : Rat) ^ k := Rat.zpow_pos (by decide)
  have hdecade := (decadeAbove_spec (magnitude_pos hzero)).1
  have hspacing := zpow_exponent_le_magnitude hzero
  have hupper : n * (10 : Rat) ^ k ≤ x.magnitude + (2 : Rat) ^ x.exponent / 2 :=
    (Interval.contains_iff.mp hpoint).2.1
  have hcast : (1 : Rat) ≤ n := by exact_mod_cast hn
  have hmul := Rat.mul_le_mul_of_nonneg_right hcast (Rat.le_of_lt hunit)
  have hlt : (10 : Rat) ^ k < (10 : Rat) ^ (decadeAbove x.magnitude + 1) := by
    rw [Rat.zpow_add_one (by decide)]
    linarith
  have hexponents := (zpow_lt_zpow_iff_right₀ (by decide)).mp hlt
  omega

/-- The grids are searched from coarse to fine. -/
theorem pairwise_gridExponents (x : Binary f) : x.gridExponents.Pairwise (· > ·) := by
  rw [gridExponents, List.pairwise_map]
  exact List.pairwise_lt_range.imp fun h => by omega

/-- No grid is left out between the first one and another one. -/
theorem mem_gridExponents_of_lt {j k : Int} (hj : j ∈ x.gridExponents) (hlt : j < k)
    (htop : k ≤ decadeAbove x.magnitude) : k ∈ x.gridExponents := by
  rw [gridExponents, List.mem_map] at hj ⊢
  obtain ⟨i, hi, rfl⟩ := hj
  rw [List.mem_range] at hi
  exact ⟨(decadeAbove x.magnitude - k).toNat, List.mem_range.mpr (by omega), by omega⟩

/-- The shortest decimal lies on the coarsest grid that has a point in the rounding interval. -/
theorem exponent_le_exponent_shortest (hzero : x.isZero = false) {n : Nat} {k : Int}
    (hpoint : x.roundingInterval.contains (n * (10 : Rat) ^ k) = true) :
    k ≤ x.shortest.exponent := by
  obtain ⟨coarser, j, finer, hsplit, hj, hnone⟩ :=
    List.findSome?_eq_some_iff.mp (findSome?_nearestOnGrid? hzero)
  obtain ⟨m, hshortest, -⟩ := exists_of_nearestOnGrid?_eq_some hj
  have hexponent : x.shortest.exponent = j := congrArg Decimal.exponent hshortest
  rw [hexponent]
  apply Int.not_lt.mp
  intro hlt
  have hmem : k ∈ x.gridExponents := by
    have hgrid : j ∈ x.gridExponents := hsplit ▸ List.mem_append_right _ List.mem_cons_self
    exact mem_gridExponents_of_lt hgrid hlt (exponent_le_decadeAbove hzero hpoint)
  have hsorted := x.pairwise_gridExponents
  rw [hsplit, List.pairwise_append, List.pairwise_cons] at hsorted
  rw [hsplit, List.mem_append, List.mem_cons] at hmem
  rcases hmem with hcoarser | rfl | hfiner
  · have hfound := isSome_nearestOnGrid? (Rat.le_of_lt (magnitude_pos hzero))
      x.contains_magnitude hpoint
    rw [hnone k hcoarser] at hfound
    cases hfound
  · omega
  · have hgt := hsorted.2.1.1 k hfiner
    omega

/-- No point of the rounding interval has fewer digits than the shortest decimal. -/
theorem length_digits_shortest_le (hzero : x.isZero = false) {n : Nat} {k : Int}
    (hpoint : x.roundingInterval.contains (n * (10 : Rat) ^ k) = true) :
    (Numeral.digits x.shortest.coefficient).length ≤ (Numeral.digits n).length := by
  have hexponent := exponent_le_exponent_shortest hzero hpoint
  apply Numeral.length_digits_le_of_lt
  apply Nat.lt_of_not_le
  intro hlong
  have hunit : (0 : Rat) < (10 : Rat) ^ k := Rat.zpow_pos (by decide)
  have hunit' : (0 : Rat) < (10 : Rat) ^ x.shortest.exponent := Rat.zpow_pos (by decide)
  -- The least number with one digit more is a multiple of ten.
  obtain ⟨power, hpower⟩ : 10 ∣ 10 ^ (Numeral.digits n).length :=
    dvd_pow_self 10 (Nat.ne_of_gt Nat.length_toDigits_pos)
  have hshort := Numeral.lt_pow_length_digits n
  rw [hpower, Nat.mul_comm] at hlong hshort
  have hgrid : (10 : Rat) ^ k ≤ (10 : Rat) ^ x.shortest.exponent :=
    zpow_le_zpow_right₀ (by decide) hexponent
  have hbetween : x.roundingInterval.contains (power * (10 : Rat) ^ (x.shortest.exponent + 1)) =
      true := by
    rw [natCast_mul_zpow_add_one]
    apply Interval.contains_of_between hpoint (contains_shortest hzero)
    · have hcast := Rat.natCast_le_natCast.mpr (Nat.le_of_lt hshort)
      exact mul_le_mul hcast hgrid (Rat.le_of_lt hunit) (Rat.natCast_nonneg)
    · exact Rat.mul_le_mul_of_nonneg_right (Rat.natCast_le_natCast.mpr hlong) (Rat.le_of_lt hunit')
  have hcoarser := exponent_le_exponent_shortest hzero hbetween
  omega

/-- No decimal that is read as a finite number has fewer digits than one of the value that is
written for the number. -/
theorem significantDigits_le_of_round_eq (hp : 0 < f.fractionBits) (hfinite : x.isFinite = true)
    {t d : Decimal} {isNegative : Bool} (ht : t.value = x.shortest.value)
    (hd : d.round f isNegative = x) : t.significantDigits ≤ d.significantDigits := by
  cases hzero : x.isZero with
  | true =>
      rw [value_shortest_of_isZero hzero] at ht
      rw [Decimal.significantDigits, Decimal.coefficient_of_value_eq_zero ht]
      exact Nat.zero_le _
  | false =>
      have hpattern := roundedPattern_of_round_eq hd
      have hpoint := contains_of_roundedPattern_eq hp hzero hfinite d.value_nonneg hpattern
      have hpos := Interval.coefficient_pos_of_contains (roundingInterval_lower_pos hzero) hpoint
      obtain ⟨s, hvalue, hne, hcount⟩ := Decimal.exists_stripped hpos
      rw [← hvalue] at hpoint
      calc t.significantDigits
        _ ≤ (Numeral.digits x.shortest.coefficient).length :=
            Decimal.significantDigits_le_of_value_eq ht
        _ ≤ (Numeral.digits s.coefficient).length := length_digits_shortest_le hzero hpoint
        _ = s.significantDigits := (Decimal.significantDigits_of_mod_ne_zero hne).symm
        _ = d.significantDigits := hcount

end Binary

end GraphQLText

import GraphQLText.Proofs.Number.Rounding
import Mathlib.Tactic.Linarith
import Mathlib.Tactic.Ring

/-!
# Shortest decimals read back

The search for a shortest decimal always succeeds: the finest grid is finer than half a unit of the
number, so the neighbour above the number on it lies in the rounding interval.  The decimal that is
found lies in the interval as well, so it is read as the number it was written for.
-/

namespace GraphQLText

/-! ## Points of a grid -/

theorem Interval.contains_of_between {i : Interval} {a b v : Rat} (ha : i.contains a = true)
    (hb : i.contains b = true) (hle : a ≤ v) (hge : v ≤ b) : i.contains v = true := by
  rw [contains_iff] at ha hb ⊢
  refine ⟨le_trans ha.1 hle, le_trans hge hb.2.1, fun hopen => ⟨?_, ?_⟩⟩
  · exact lt_of_lt_of_le (ha.2.2 hopen).1 hle
  · exact lt_of_le_of_lt hge (hb.2.2 hopen).2

/-- The two neighbours of a rational on a grid. -/
theorem floor_mul_zpow_le {x : Rat} (hx : 0 ≤ x) (k : Int) :
    (x / (10 : Rat) ^ k).floor.toNat * (10 : Rat) ^ k ≤ x ∧
      x < (x / (10 : Rat) ^ k).floor.toNat * (10 : Rat) ^ k + (10 : Rat) ^ k := by
  have hunit : (0 : Rat) < (10 : Rat) ^ k := Rat.zpow_pos (by decide)
  obtain ⟨hfloor, hnext⟩ := floor_toNat_le (div_nonneg hx (Rat.le_of_lt hunit))
  have hbelow := Rat.mul_le_mul_of_nonneg_right hfloor (Rat.le_of_lt hunit)
  have habove := Rat.mul_lt_mul_of_pos_right hnext hunit
  rw [Rat.div_mul_cancel (Rat.ne_of_gt hunit)] at hbelow habove
  exact ⟨hbelow, by linarith⟩

/-- If a grid has a point in the interval then one of the two neighbours is there as well. -/
theorem isSome_nearestOnGrid? {i : Interval} {x : Rat} {n : Nat} {k : Int} (hx : 0 ≤ x)
    (hinside : i.contains x = true) (hpoint : i.contains (n * (10 : Rat) ^ k) = true) :
    (nearestOnGrid? i x k).isSome = true := by
  have hunit : (0 : Rat) < (10 : Rat) ^ k := Rat.zpow_pos (by decide)
  obtain ⟨hbelow, habove⟩ := floor_mul_zpow_le hx k
  unfold nearestOnGrid?
  dsimp only
  generalize (x / (10 : Rat) ^ k).floor.toNat = below at *
  rcases Nat.lt_or_ge below n with hlt | hge
  · have hcast : (below + 1 : Rat) ≤ n := by exact_mod_cast hlt
    have hmul := Rat.mul_le_mul_of_nonneg_right hcast (Rat.le_of_lt hunit)
    have hupper : i.contains (below * (10 : Rat) ^ k + (10 : Rat) ^ k) = true :=
      Interval.contains_of_between hinside hpoint (by linarith) (by linarith)
    rw [hupper]
    cases i.contains (below * (10 : Rat) ^ k) with
    | true => rfl
    | false => rfl
  · have hcast := Rat.natCast_le_natCast.mpr hge
    have hmul := Rat.mul_le_mul_of_nonneg_right hcast (Rat.le_of_lt hunit)
    have hlower : i.contains (below * (10 : Rat) ^ k) = true :=
      Interval.contains_of_between hpoint hinside hmul hbelow
    rw [hlower]
    cases i.contains (below * (10 : Rat) ^ k + (10 : Rat) ^ k) with
    | true => rfl
    | false => rfl

theorem two_mul_two_pow_le (n : Nat) : 2 * (2 : Rat) ^ (n + 1) ≤ (10 : Rat) ^ (n + 1) := by
  induction n with
  | zero =>
      rw [Rat.pow_one, Rat.pow_one]
      grind
  | succ n ih =>
      have hpos : (0 : Rat) < (2 : Rat) ^ (n + 1) := Rat.pow_pos (by decide)
      rw [Rat.pow_succ 2, Rat.pow_succ 10]
      grind

namespace Binary

variable {f : BinaryFormat} {x : Binary f}

theorem roundingInterval_lower_lt (x : Binary f) : x.roundingInterval.lower < x.magnitude := by
  have hunit : (0 : Rat) < (2 : Rat) ^ x.exponent := Rat.zpow_pos (by decide)
  unfold roundingInterval
  dsimp only
  split
  · grind
  · grind

theorem contains_magnitude (x : Binary f) : x.roundingInterval.contains x.magnitude = true := by
  have hunit : (0 : Rat) < (2 : Rat) ^ x.exponent := Rat.zpow_pos (by decide)
  have hupper : x.roundingInterval.upper = x.magnitude + (2 : Rat) ^ x.exponent / 2 := rfl
  have hlower := x.roundingInterval_lower_lt
  rw [Interval.contains_iff, hupper]
  exact ⟨by linarith, by linarith, fun _ => ⟨hlower, by linarith⟩⟩

/-- The step of the finest grid is less than half a unit of the number. -/
theorem finest_grid_lt (h : 0 < x.magnitude) :
    (10 : Rat) ^ (decadeAbove x.magnitude - (f.fractionBits + 3 : Nat)) <
      (2 : Rat) ^ x.exponent / 2 := by
  have hunit : (0 : Rat) < (2 : Rat) ^ x.exponent := Rat.zpow_pos (by decide)
  have hdecade := (decadeAbove_spec h).2
  have hexponent : decadeAbove x.magnitude - 2 =
      decadeAbove x.magnitude - (f.fractionBits + 3 : Nat) +
        ((f.fractionBits + 1 : Nat) : Int) := by
    omega
  rw [hexponent, Rat.zpow_add (by decide), Rat.zpow_natCast] at hdecade
  have hmagnitude := x.magnitude_add_lt
  have hnext : x.exponent + f.fractionBits + 1 =
      x.exponent + ((f.fractionBits + 1 : Nat) : Int) := by omega
  rw [hnext, Rat.zpow_add (by decide), Rat.zpow_natCast] at hmagnitude
  have hpowers := two_mul_two_pow_le f.fractionBits
  have htwo : (0 : Rat) < (2 : Rat) ^ (f.fractionBits + 1) := Rat.pow_pos (by decide)
  have hgrid : (0 : Rat) < (10 : Rat) ^ (decadeAbove x.magnitude - (f.fractionBits + 3 : Nat)) :=
    Rat.zpow_pos (by decide)
  -- The number is more than `10 ^ (p + 1)` steps but less than `2 ^ (p + 1)` units.
  apply Rat.not_le.mp
  intro hcoarse
  have hcoarser := Rat.mul_le_mul_of_nonneg_right hcoarse (Rat.le_of_lt htwo)
  have hfiner := Rat.mul_le_mul_of_nonneg_left hpowers (Rat.le_of_lt hgrid)
  grind

theorem magnitude_pos (h : x.isZero = false) : 0 < x.magnitude :=
  Rat.mul_pos (Rat.natCast_pos.mpr (significand_pos h)) (Rat.zpow_pos (by decide))

/-- One of the grids has a point in the rounding interval. -/
theorem isSome_findSome?_nearestOnGrid? (h : x.isZero = false) :
    (x.gridExponents.findSome? (nearestOnGrid? x.roundingInterval x.magnitude)).isSome = true := by
  have hpos := magnitude_pos h
  rw [List.findSome?_isSome_iff]
  refine ⟨decadeAbove x.magnitude - (f.fractionBits + 3 : Nat), ?_, ?_⟩
  · rw [gridExponents, List.mem_map]
    exact ⟨f.fractionBits + 3, List.mem_range.mpr (Nat.lt_succ_self _), rfl⟩
  · have hfine := finest_grid_lt hpos
    have hlower := x.roundingInterval_lower_lt
    have hupper : x.roundingInterval.upper = x.magnitude + (2 : Rat) ^ x.exponent / 2 := rfl
    generalize decadeAbove x.magnitude - (f.fractionBits + 3 : Nat) = k at *
    obtain ⟨hbelow, habove⟩ := floor_mul_zpow_le (Rat.le_of_lt hpos) k
    generalize (x.magnitude / (10 : Rat) ^ k).floor.toNat = below at *
    have hpoint : x.roundingInterval.contains ((below + 1 : Nat) * (10 : Rat) ^ k) = true := by
      rw [natCast_succ_mul_zpow, Interval.contains_iff, hupper]
      exact ⟨by linarith, by linarith, fun _ => ⟨by linarith, by linarith⟩⟩
    exact isSome_nearestOnGrid? (Rat.le_of_lt hpos) x.contains_magnitude hpoint

/-- The shortest decimal of a nonzero number is what the search finds. -/
theorem findSome?_nearestOnGrid? (h : x.isZero = false) :
    x.gridExponents.findSome? (nearestOnGrid? x.roundingInterval x.magnitude) =
      some x.shortest := by
  obtain ⟨d, hd⟩ := Option.isSome_iff_exists.mp (isSome_findSome?_nearestOnGrid? h)
  rw [shortest, h, hd]
  rfl

/-- The shortest decimal of a nonzero number lies in its rounding interval. -/
theorem contains_shortest (h : x.isZero = false) :
    x.roundingInterval.contains x.shortest.value = true := by
  obtain ⟨k, -, hk⟩ := List.exists_of_findSome?_eq_some (findSome?_nearestOnGrid? h)
  obtain ⟨n, hshortest, hpoint⟩ := exists_of_nearestOnGrid?_eq_some hk
  rw [hshortest]
  exact hpoint

theorem value_shortest_of_isZero (h : x.isZero = true) : x.shortest.value = 0 := by
  rw [shortest, if_pos h, Decimal.value]
  exact Rat.zero_mul _

/-- The shortest decimal of a finite number rounds to that number. -/
theorem roundedPattern_shortest (hfinite : x.isFinite = true) :
    f.roundedPattern x.shortest.value = x.fields := by
  cases hzero : x.isZero with
  | false => exact roundedPattern_of_contains hzero hfinite (contains_shortest hzero)
  | true =>
      have hvalue := value_shortest_of_isZero hzero
      rw [isZero, Bool.and_eq_true, isSubnormal_eq_true_iff, beq_iff_eq] at hzero
      rw [hvalue, fields, hzero.1, hzero.2, Nat.zero_shiftLeft]
      rfl

/-- Every decimal of the same value as the shortest one is read as the number it was written for. -/
theorem round_of_value_eq_shortest (hfinite : x.isFinite = true) {d : Decimal}
    (h : d.value = x.shortest.value) : d.round f x.isNegative = x := by
  apply Decimal.round_eq
  rw [h]
  exact roundedPattern_shortest hfinite

end Binary

end GraphQLText

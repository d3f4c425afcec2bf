import GraphQLText.Number.Shortest

/-!
# Numbers around a binary number

The rationals that round to a nonzero number are all positive, so no decimal found among them has
the coefficient zero.
-/

namespace GraphQLText

/-- A rational of the interval lies between its ends, and strictly between them if the interval has
none. -/
theorem Interval.contains_iff {i : Interval} {x : Rat} :
    i.contains x = true ↔ i.lower ≤ x ∧ x ≤ i.upper ∧
      (i.isClosed = false → i.lower < x ∧ x < i.upper) := by
  unfold contains
  cases i.isClosed with
  | true =>
      rw [if_pos rfl, Bool.and_eq_true, decide_eq_true_eq, decide_eq_true_eq]
      simp
  | false =>
      rw [if_neg Bool.false_ne_true, Bool.and_eq_true, decide_eq_true_eq, decide_eq_true_eq]
      constructor
      · intro hstrict
        exact ⟨Rat.le_of_lt hstrict.1, Rat.le_of_lt hstrict.2, fun _ => hstrict⟩
      · intro h
        exact h.2.2 rfl

/-- In an interval of positive numbers, a point of a grid has a positive coefficient. -/
theorem Interval.coefficient_pos_of_contains {i : Interval} {n : Nat} {k : Int} (hi : 0 < i.lower)
    (h : i.contains (n * (10 : Rat) ^ k) = true) : 0 < n := by
  have hle := (contains_iff.mp h).1
  apply Nat.pos_of_ne_zero
  rintro rfl
  grind

theorem natCast_succ_mul_zpow (n : Nat) (k : Int) :
    ((n + 1 : Nat) : Rat) * (10 : Rat) ^ k = n * (10 : Rat) ^ k + (10 : Rat) ^ k := by
  rw [Rat.natCast_add, Rat.add_mul]
  exact congrArg _ (Rat.one_mul _)

/-- What is found on a grid is a point of it, and lies in the interval. -/
theorem exists_of_nearestOnGrid?_eq_some {i : Interval} {x : Rat} {k : Int} {d : Decimal}
    (h : nearestOnGrid? i x k = some d) :
    ∃ n : Nat, d = ⟨n, k⟩ ∧ i.contains (n * (10 : Rat) ^ k) = true := by
  unfold nearestOnGrid? at h
  dsimp only at h
  split at h
  · next hlower hupper =>
      refine ⟨_, (Option.some.inj h).symm, ?_⟩
      split
      · exact hlower
      · rw [natCast_succ_mul_zpow]
        exact hupper
  · next hlower _ => exact ⟨_, (Option.some.inj h).symm, hlower⟩
  · next _ hupper =>
      refine ⟨_, (Option.some.inj h).symm, ?_⟩
      rw [natCast_succ_mul_zpow]
      exact hupper
  · cases h

namespace Binary

variable {f : BinaryFormat}

theorem significand_pos {x : Binary f} (h : x.isZero = false) :
    0 < x.significand := by
  apply Nat.pos_of_ne_zero
  intro hzero
  rw [significand, BitVec.toNat_append, Nat.or_eq_zero_iff,
    Nat.shiftLeft_eq_zero_iff] at hzero
  obtain ⟨hleading, hfraction⟩ := hzero
  have hsubnormal : x.isSubnormal = true := by
    cases hs : x.isSubnormal with
    | true => rfl
    | false => simp [hs] at hleading
  have hfield : x.fractionField = 0 := BitVec.eq_of_toNat_eq (by simpa using hfraction)
  simp [isZero, hsubnormal, hfield] at h

/-- A nonzero number is at least one unit. -/
theorem zpow_exponent_le_magnitude {x : Binary f} (h : x.isZero = false) :
    (2 : Rat) ^ x.exponent ≤ x.magnitude := by
  have hunit : (0 : Rat) < (2 : Rat) ^ x.exponent := Rat.zpow_pos (by decide)
  have hsignificand : ((1 : Nat) : Rat) ≤ x.significand :=
    Rat.natCast_le_natCast.mpr (significand_pos h)
  have hmul := Rat.mul_le_mul_of_nonneg_right hsignificand (Rat.le_of_lt hunit)
  grind [magnitude]

/-- The numbers that round to a nonzero number are positive. -/
theorem roundingInterval_lower_pos {x : Binary f} (h : x.isZero = false) :
    0 < x.roundingInterval.lower := by
  have hunit : (0 : Rat) < (2 : Rat) ^ x.exponent := Rat.zpow_pos (by decide)
  have hmagnitude := zpow_exponent_le_magnitude h
  unfold roundingInterval
  dsimp only
  split <;> grind

/-- Only zero is written as a decimal with the coefficient zero, and then without an exponent. -/
theorem exponent_shortest_of_coefficient_eq_zero {x : Binary f}
    (h : x.shortest.coefficient = 0) : x.shortest.exponent = 0 := by
  unfold shortest at h ⊢
  split at h
  · next hzero => rw [if_pos hzero]
  · next hzero =>
      rw [if_neg hzero]
      cases hfind : x.gridExponents.findSome?
          (nearestOnGrid? x.roundingInterval x.magnitude) with
      | none => rfl
      | some d =>
          rw [hfind, Option.getD_some] at h
          obtain ⟨k, -, hk⟩ := List.exists_of_findSome?_eq_some hfind
          obtain ⟨n, rfl, hpoint⟩ := exists_of_nearestOnGrid?_eq_some hk
          have hpos := Interval.coefficient_pos_of_contains
            (roundingInterval_lower_pos (Bool.eq_false_iff.mpr hzero)) hpoint
          exact absurd h (Nat.ne_of_gt hpos)

end Binary

end GraphQLText

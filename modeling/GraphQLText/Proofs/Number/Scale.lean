import GraphQLText.Number.Rounding
import Mathlib.Algebra.Order.Field.Basic
import Mathlib.Algebra.Order.Field.Rat

/-!
# The size of a rational

The lengths of the numerator and of the denominator of a positive rational, in the digits of some
base, tell its size up to two powers of the base.  This is how the leading power of two is found,
and how a power of ten is found that lies above the rational, and not too far above.
-/

namespace GraphQLText

/-! ## Quotients of sizes -/

theorem zpow_sub_mul_zpow {b : Rat} (hb : 0 < b) (i j : Int) :
    b ^ (i - j) * b ^ j = b ^ i := by
  rw [← Rat.zpow_add (Rat.ne_of_gt hb), Int.sub_add_cancel]

theorem natCast_den_pos (x : Rat) : (0 : Rat) < x.den :=
  Rat.natCast_pos.mpr x.den_pos

/-- The numerator of a positive rational is the product with its denominator. -/
theorem natCast_natAbs_num {x : Rat} (hx : 0 < x) : (x.num.natAbs : Rat) = x * x.den := by
  have hnum : ((x.num.natAbs : Int) : Rat) = x.num := by
    rw [Int.natAbs_of_nonneg (Rat.num_nonneg.mpr (Rat.le_of_lt hx))]
  have hquotient := Rat.mkRat_self x
  rw [Rat.mkRat_eq_div] at hquotient
  rw [← Rat.intCast_natCast, hnum]
  have hcancel := Rat.div_mul_cancel (a := (x.num : Rat)) (Rat.ne_of_gt (natCast_den_pos x))
  rw [hquotient] at hcancel
  exact hcancel.symm

theorem natAbs_num_ne_zero {x : Rat} (hx : 0 < x) : x.num.natAbs ≠ 0 := by
  intro hzero
  have hpos := Rat.mul_pos hx (natCast_den_pos x)
  rw [← natCast_natAbs_num hx, hzero] at hpos
  exact absurd hpos (by decide)

variable {b x : Rat} {i j : Int}

/-- A long numerator and a short denominator make a large rational. -/
theorem zpow_sub_lt (hb : 0 < b) (hx : 0 < x) (hnum : b ^ i ≤ x.num.natAbs)
    (hden : (x.den : Rat) < b ^ j) : b ^ (i - j) < x := by
  rw [natCast_natAbs_num hx, ← zpow_sub_mul_zpow hb i j] at hnum
  have hmul := Rat.mul_lt_mul_of_pos_left hden hx
  exact Rat.lt_of_mul_lt_mul_right (by grind) (Rat.zpow_nonneg (Rat.le_of_lt hb) (n := j))

/-- A short numerator and a long denominator make a small rational. -/
theorem lt_zpow_sub (hb : 0 < b) (hx : 0 < x) (hnum : (x.num.natAbs : Rat) < b ^ i)
    (hden : b ^ j ≤ x.den) : x < b ^ (i - j) := by
  rw [natCast_natAbs_num hx, ← zpow_sub_mul_zpow hb i j] at hnum
  have hmul := Rat.mul_le_mul_of_nonneg_left hden (Rat.le_of_lt hx)
  exact Rat.lt_of_mul_lt_mul_right (by grind) (Rat.zpow_nonneg (Rat.le_of_lt hb) (n := j))

/-! ## The leading power of two -/

theorem zpow_log2_le {n : Nat} (hn : n ≠ 0) : (2 : Rat) ^ (n.log2 : Int) ≤ n := by
  have hle := Rat.natCast_le_natCast.mpr (Nat.log2_self_le hn)
  rwa [Rat.natCast_pow] at hle

theorem lt_zpow_log2 (n : Nat) : (n : Rat) < (2 : Rat) ^ (n.log2 + 1 : Int) := by
  have hlt := Rat.natCast_lt_natCast.mpr (Nat.lt_log2_self (n := n))
  rwa [Rat.natCast_pow] at hlt

/-- A positive rational lies between its leading power of two and the next power. -/
theorem leadingPower_spec (hx : 0 < x) :
    (2 : Rat) ^ leadingPower x ≤ x ∧ x < (2 : Rat) ^ (leadingPower x + 1) := by
  have hnum := natAbs_num_ne_zero hx
  have hlower := zpow_sub_lt (by decide) hx (zpow_log2_le hnum) (lt_zpow_log2 x.den)
  have hupper := lt_zpow_sub (by decide) hx (lt_zpow_log2 _) (zpow_log2_le x.den_nz)
  unfold leadingPower
  dsimp only
  generalize (x.num.natAbs.log2 : Int) = m at *
  generalize (x.den.log2 : Int) = n at *
  split
  · next hestimate =>
      have hnext : m + 1 - n = m - n + 1 := by omega
      exact ⟨hestimate, hnext ▸ hupper⟩
  · next hestimate =>
      constructor
      · have hprevious : m - (n + 1) = m - n - 1 := by omega
        exact Rat.le_of_lt (hprevious ▸ hlower)
      · rw [Int.sub_add_cancel]
        exact Rat.not_le.mp hestimate

/-! ## A power of ten above -/

theorem zpow_length_toDigits_le {n : Nat} (hn : n ≠ 0) :
    (10 : Rat) ^ ((Nat.toDigits 10 n).length - 1 : Int) ≤ n := by
  have hpos : 0 < (Nat.toDigits 10 n).length := Nat.length_toDigits_pos
  rcases Nat.lt_or_eq_of_le hpos with hlong | hsingle
  · have hle : 10 ^ ((Nat.toDigits 10 n).length - 1) ≤ n := by
      apply Nat.not_lt.mp
      rw [← Nat.length_toDigits_le_iff (by decide) (by omega)]
      omega
    have hcast := Rat.natCast_le_natCast.mpr hle
    rw [Rat.natCast_pow, ← Rat.zpow_natCast, Int.natCast_sub hpos] at hcast
    exact hcast
  · rw [← hsingle]
    exact Rat.natCast_le_natCast.mpr (Nat.one_le_iff_ne_zero.mpr hn)

theorem lt_zpow_length_toDigits (n : Nat) :
    (n : Rat) < (10 : Rat) ^ ((Nat.toDigits 10 n).length : Int) := by
  have hlt := (Nat.length_toDigits_le_iff (by decide) Nat.length_toDigits_pos).mp
    (Nat.le_refl (Nat.toDigits 10 n).length)
  have hcast := Rat.natCast_lt_natCast.mpr hlt
  rwa [Rat.natCast_pow] at hcast

/-- The power of ten above a positive rational is larger than it, but by less than two powers. -/
theorem decadeAbove_spec (hx : 0 < x) :
    x < (10 : Rat) ^ decadeAbove x ∧ (10 : Rat) ^ (decadeAbove x - 2) < x := by
  have hlower := zpow_sub_lt (by decide) hx (zpow_length_toDigits_le (natAbs_num_ne_zero hx))
    (lt_zpow_length_toDigits x.den)
  have hupper := lt_zpow_sub (by decide) hx (lt_zpow_length_toDigits _)
    (zpow_length_toDigits_le x.den_nz)
  unfold decadeAbove
  generalize ((Nat.toDigits 10 x.num.natAbs).length : Int) = m at *
  generalize ((Nat.toDigits 10 x.den).length : Int) = n at *
  constructor
  · have habove : m - (n - 1) = m - n + 1 := by omega
    exact habove ▸ hupper
  · have hbelow : m - 1 - n = m - n + 1 - 2 := by omega
    exact hbelow ▸ hlower

end GraphQLText

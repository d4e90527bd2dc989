/-
Rounding intervals.

The numbers that are read as a finite double lie between two ends, half way to its
neighbours, and `covers` decides whether a decimal does, `covers_iff`.  The upper end of
a magnitude is at most the lower end of any greater one; where the two meet, the
significands are one apart, so one of them is odd and its interval leaves the end out.
So no number lies in the intervals of two magnitudes, `magnitude_eq_of_mem`.

Two things make the comparison of neighbours less than obvious.  Below a power of two
the neighbour is only half as far away, so the lower end is counted in quarters of the
last place; and two magnitudes need not have one scale.  Both are seen from the scale of
the smaller number, where everything is an integer, `quarters_lt_or_eq`.

The search for the shortest decimal gives one of the interval on every grid that it
accepts, and on the finest grid the value itself, `shortest_mem_interval`.  That no
shorter one exists is not needed anywhere: a text has to be read back, and it does not
have to be short for that.
-/
import FieldQuery.Numeric.Shortest
import Mathlib.Algebra.Order.Field.Power
import Mathlib.Data.Rat.Cast.Order
import Mathlib.Order.Interval.Set.Defs
import Mathlib.Tactic.Linarith
import Mathlib.Tactic.NormNum
import Mathlib.Tactic.Positivity
import Mathlib.Tactic.Ring

namespace FieldQuery

theorem power_eq_pow (base n : Nat) : power base n = base ^ n := rfl

/-- The number that a decimal stands for. -/
def Decimal.value (d : Decimal) : ℚ := d.digits * 10 ^ d.exponent

namespace Double

variable {x y : Double} {g : Int} {c : Nat} {r s : ℚ}

/-! ### The common scale

The search compares integers, each a decimal or an end multiplied with one number that
makes both whole.  Dividing by it gives back what is meant.
-/

/-- What values and decimals are multiplied with to become integers. -/
def common (x : Double) (g : Int) : ℚ := 10 ^ (-g).toNat * 2 ^ (2 - x.scale).toNat

theorem common_pos (x : Double) (g : Int) : 0 < x.common g := by
  unfold common
  positivity

/-- Multiplying with the denominator of a power gives its numerator. -/
theorem zpow_mul_toNat {base : ℚ} (hbase : base ≠ 0) (e : Int) :
    base ^ e * base ^ (-e).toNat = base ^ e.toNat := by
  rw [← zpow_natCast, ← zpow_natCast, ← zpow_add₀ hbase]
  congr 1
  omega

theorem cast_point (x : Double) (g : Int) (c : Nat) :
    (x.point g c : ℚ) = c * 10 ^ g * x.common g := by
  unfold point common
  rw [power_eq_pow, power_eq_pow]
  push_cast
  rw [← zpow_mul_toNat (by norm_num : (10 : ℚ) ≠ 0) g]
  ring

theorem cast_quarters (x : Double) (g : Int) (k : Nat) :
    (x.quarters g k : ℚ) = k * 2 ^ (x.scale - 2) * x.common g := by
  unfold quarters common
  rw [power_eq_pow, power_eq_pow]
  push_cast
  rw [← zpow_mul_toNat (by norm_num : (2 : ℚ) ≠ 0) (x.scale - 2), neg_sub]
  ring

/-! ### The ends of the interval

Ties go to the even significand, so whether the ends belong to the interval depends on
the significand and is the same for both.
-/

/-- The lower end. -/
def lower (x : Double) : ℚ := (4 * x.significand - x.lowerQuarters : Nat) * 2 ^ (x.scale - 2)

/-- The upper end. -/
def upper (x : Double) : ℚ := (4 * x.significand + 2 : Nat) * 2 ^ (x.scale - 2)

/-- The numbers between the ends, and those at the ends where the significand is even. -/
def interval (x : Double) : Set ℚ :=
  if x.significand % 2 = 0 then Set.Icc x.lower x.upper else Set.Ioo x.lower x.upper

/-- The covered decimals are those in the interval. -/
theorem covers_iff : x.covers g c = true ↔ (c * 10 ^ g : ℚ) ∈ x.interval := by
  have hcommon := x.common_pos g
  unfold covers interval
  dsimp only
  split
  · rw [decide_eq_true_iff, ← Nat.cast_le (α := ℚ), ← Nat.cast_le (α := ℚ), cast_point,
      cast_quarters, cast_quarters]
    exact and_congr (mul_le_mul_iff_of_pos_right hcommon) (mul_le_mul_iff_of_pos_right hcommon)
  · rw [decide_eq_true_iff, ← Nat.cast_lt (α := ℚ), ← Nat.cast_lt (α := ℚ), cast_point,
      cast_quarters, cast_quarters]
    exact and_congr (mul_lt_mul_iff_of_pos_right hcommon) (mul_lt_mul_iff_of_pos_right hcommon)

theorem bounds_of_mem (h : r ∈ x.interval) : x.lower ≤ r ∧ r ≤ x.upper := by
  unfold interval at h
  split at h
  · exact h
  · exact ⟨h.1.le, h.2.le⟩

/-- Where the significand is odd the ends are left out. -/
theorem strict_bounds_of_mem (h : r ∈ x.interval) (hodd : x.significand % 2 ≠ 0) :
    x.lower < r ∧ r < x.upper := by
  unfold interval at h
  rwa [if_neg hodd] at h

/-! ### Intervals do not overlap

Everything rests on one inequality between natural numbers, which compares a magnitude
with the next greater one that has another exponent.
-/

/-- What the magnitude says about the significand. -/
theorem significand_spec (x : Double) :
    ∃ fraction < exponentWeight, x.magnitude = exponentWeight * x.exponentBits + fraction ∧
      (x.exponentBits = 0 ∧ x.significand = fraction ∨
        0 < x.exponentBits ∧ x.significand = exponentWeight + fraction) := by
  refine ⟨x.magnitude % exponentWeight, Nat.mod_lt _ (by decide), ?_, ?_⟩
  · exact (Nat.div_add_mod _ _).symm
  · unfold significand
    split
    · rename_i hzero
      exact .inl ⟨hzero, Nat.add_zero _⟩
    · rename_i hpos
      exact .inr ⟨Nat.pos_of_ne_zero hpos, Nat.add_comm _ _⟩

theorem scale_eq (x : Double) : x.scale = max (x.exponentBits : Int) 1 - 1075 := by
  unfold scale
  split <;> omega

theorem lowerQuarters_le (x : Double) : x.lowerQuarters ≤ 2 := by
  unfold lowerQuarters
  split <;> omega

/-- Seen from the scale of a number, the interval of any greater one begins above its upper end,
or at it, and then only one of the significands is even. -/
theorem quarters_lt_or_eq (h : x.magnitude < y.magnitude) :
    ∃ k : Nat, y.scale = x.scale + k ∧
      (4 * x.significand + 2 < (4 * y.significand - y.lowerQuarters) * 2 ^ k ∨
        4 * x.significand + 2 = (4 * y.significand - y.lowerQuarters) * 2 ^ k ∧
          x.significand % 2 ≠ y.significand % 2) := by
  have hfields : x.exponentBits ≤ y.exponentBits := Nat.div_le_div_right h.le
  have hx := x.scale_eq
  have hy := y.scale_eq
  obtain ⟨fx, hfx, hmx, hsx⟩ := x.significand_spec
  obtain ⟨fy, hfy, hmy, hsy⟩ := y.significand_spec
  rw [exponentWeight] at *
  refine ⟨(y.scale - x.scale).toNat, by omega, ?_⟩
  cases hk : (y.scale - x.scale).toNat with
  | zero =>
      have htwo : y.lowerQuarters = 2 ∨ 1 < y.exponentBits ∧ fy = 0 := by
        unfold lowerQuarters
        rw [exponentWeight]
        split <;> omega
      rw [pow_zero, mul_one]
      rcases hfields.eq_or_lt with heq | hlt
      · -- the same exponent bits: the fractions are in order
        rw [heq] at hmx hsx
        omega
      · -- the greatest subnormal numbers and the least normal ones
        omega
  | succ k =>
      have hq := y.lowerQuarters_le
      have hgrow : 2 ≤ 2 ^ (k + 1) := by
        rw [pow_succ]
        have := Nat.one_le_two_pow (n := k)
        omega
      have hmul := Nat.mul_le_mul_left (4 * y.significand - y.lowerQuarters) hgrow
      have hone : fy = 0 → y.lowerQuarters = 1 := by
        intro hzero
        unfold lowerQuarters
        rw [exponentWeight, if_pos (by omega)]
      omega

theorem lt_of_mem (h : x.magnitude < y.magnitude) (hr : r ∈ x.interval) (hs : s ∈ y.interval) :
    r < s := by
  obtain ⟨k, hscale, hends⟩ := quarters_lt_or_eq h
  have hlower : y.lower =
      ((4 * y.significand - y.lowerQuarters) * 2 ^ k : Nat) * 2 ^ (x.scale - 2) := by
    have hexponent : y.scale - 2 = k + (x.scale - 2) := by omega
    rw [lower, hexponent, zpow_add₀ (by norm_num), zpow_natCast]
    push_cast
    ring
  have hunit : (0 : ℚ) < 2 ^ (x.scale - 2) := by positivity
  rcases hends with hlt | ⟨heq, hparity⟩
  · -- there is room between the intervals
    have hbelow : x.upper < y.lower := by
      rw [hlower, upper]
      exact mul_lt_mul_of_pos_right (Nat.cast_lt.mpr hlt) hunit
    exact (bounds_of_mem hr).2.trans_lt (hbelow.trans_le (bounds_of_mem hs).1)
  · -- the intervals meet, and one of them leaves the end out
    have hmeet : x.upper = y.lower := by rw [hlower, upper, heq]
    by_cases heven : x.significand % 2 = 0
    · have hodd : y.significand % 2 ≠ 0 := fun hyeven => hparity (heven.trans hyeven.symm)
      exact (bounds_of_mem hr).2.trans_lt (hmeet ▸ (strict_bounds_of_mem hs hodd).1)
    · exact (strict_bounds_of_mem hr heven).2.trans_le (hmeet ▸ (bounds_of_mem hs).1)

theorem magnitude_eq_of_mem (hx : r ∈ x.interval) (hy : r ∈ y.interval) :
    x.magnitude = y.magnitude := by
  rcases lt_trichotomy x.magnitude y.magnitude with hlt | heq | hgt
  · exact absurd (lt_of_mem hlt hx hy) (lt_irrefl r)
  · exact heq
  · exact absurd (lt_of_mem hgt hy hx) (lt_irrefl r)

/-! ### The search ends inside the interval

Each grid offers the decimals next to the value, and the last grid offers the value.
-/

theorem quarters_le {j k : Nat} (x : Double) (g : Int) (h : j ≤ k) :
    x.quarters g j ≤ x.quarters g k :=
  Nat.mul_le_mul_right _ (Nat.mul_le_mul_right _ h)

theorem quarters_lt {j k : Nat} (x : Double) (g : Int) (h : j < k) :
    x.quarters g j < x.quarters g k :=
  Nat.mul_lt_mul_of_pos_right
    (Nat.mul_lt_mul_of_pos_right h (power_pos (by decide) _)) (power_pos (by decide) _)

/-- The value itself is in its interval. -/
theorem covers_of_point_eq (h : x.point g c = x.quarters g (4 * x.significand)) :
    x.covers g c = true := by
  have hlower : 0 < x.lowerQuarters := by
    unfold lowerQuarters
    split <;> omega
  unfold covers
  dsimp only
  rw [h]
  split
  · rw [decide_eq_true_iff]
    exact ⟨x.quarters_le g (by omega), x.quarters_le g (by omega)⟩
  · rw [decide_eq_true_iff]
    exact ⟨x.quarters_lt g (by omega), x.quarters_lt g (by omega)⟩

theorem point_eq_mul (x : Double) (g : Int) (c : Nat) : x.point g c = c * x.point g 1 := by
  unfold point
  rw [Nat.one_mul, Nat.mul_assoc]

/-- The finest grid holds the value. -/
theorem point_dvd_quarters (x : Double) :
    x.point x.finestGrid 1 ∣ x.quarters x.finestGrid (4 * x.significand) := by
  have hgrid : x.finestGrid.toNat = 0 := by
    unfold finestGrid
    omega
  unfold point quarters
  rw [hgrid, power_zero, Nat.mul_one, Nat.one_mul]
  -- the power of two in the denominator is taken from the four and from the power of ten
  have hfew : (2 - x.scale).toNat ≤ 2 + (-x.finestGrid).toNat := by
    unfold finestGrid
    omega
  have hten : power 2 (2 - x.scale).toNat ∣ 4 * power 10 (-x.finestGrid).toNat := by
    rw [power_eq_pow, power_eq_pow]
    refine (pow_dvd_pow 2 hfew).trans ?_
    rw [pow_add]
    exact Nat.mul_dvd_mul_left _ (pow_dvd_pow_of_dvd (by decide) _)
  refine hten.trans ⟨x.significand * power 2 (x.scale - 2).toNat, ?_⟩
  ring

theorem covers_of_neighbour? {found : Decimal} (h : x.neighbour? g = some found) :
    x.covers found.exponent found.digits = true := by
  unfold neighbour? at h
  dsimp only at h
  split at h
  · rename_i hbelow _
    obtain rfl := Option.some.inj h
    exact hbelow
  · rename_i _ habove
    obtain rfl := Option.some.inj h
    exact habove
  · simp at h
  · rename_i hbelow habove
    split at h
    · obtain rfl := Option.some.inj h
      exact hbelow
    · obtain rfl := Option.some.inj h
      exact habove

theorem covers_searchGrids (x : Double) (n : Nat) :
    x.covers (x.searchGrids n).exponent (x.searchGrids n).digits = true := by
  induction n with
  | zero =>
      refine covers_of_point_eq ?_
      rw [point_eq_mul]
      exact Nat.div_mul_cancel x.point_dvd_quarters
  | succ n ih =>
      unfold searchGrids
      split
      · rename_i hfound
        exact covers_of_neighbour? hfound
      · exact ih

/-- **The shortest decimal reads back.** -/
theorem shortest_mem_interval (x : Double) : x.shortest.value ∈ x.interval := by
  refine covers_iff.mp ?_
  unfold shortest
  split
  · rename_i hzero
    refine covers_of_point_eq ?_
    simp [point, quarters, hzero]
  · exact x.covers_searchGrids _

end Double

end FieldQuery

/-
Floats beside integers.

Beside an integer a float counts without its fraction.  `truncated` is the exact value
rounded toward zero, `truncated_eq`, however large it is.  What is compared is the
integer of 64 bits next to it, and from there on only the two ends of these integers
matter: a float beyond an end counts as the end, so it is equal to that integer and in
the right order with every other one, `compare?_integer_float`.

So there are two steps that lose something.  The first is the fraction, and it is meant;
the second is the cut at the ends, which shows in a single integer on either side.
-/
import FieldQuery.Proofs.Numeric.Whole
import FieldQuery.Value.Compare
import Mathlib.Data.Rat.Floor

namespace FieldQuery

/-- A number without its fraction. -/
def towardZero (r : ℚ) : ℤ := if r < 0 then ⌈r⌉ else ⌊r⌋

namespace Double

variable {x : Double}

/-- The exact value of a finite number. -/
def value (x : Double) : ℚ := if x.negative then -x.size else x.size

theorem floor_size (x : Double) : ⌊x.size⌋ = x.wholePart := by
  obtain ⟨hlow, hhigh⟩ := x.wholePart_spec
  exact Int.floor_eq_iff.mpr ⟨by exact_mod_cast hlow, by exact_mod_cast hhigh⟩

theorem truncated_eq (x : Double) : x.truncated = towardZero x.value := by
  have hsize := x.size_nonneg
  unfold truncated towardZero value
  cases x.negative with
  | false => simp [hsize.not_gt, floor_size]
  | true =>
      rcases hsize.eq_or_lt with hzero | hpos
      · -- negative zero has no sign left
        have hwhole : x.wholePart = 0 := by
          have hfloor := x.floor_size
          rw [← hzero, Int.floor_zero] at hfloor
          exact_mod_cast hfloor.symm
        simp [← hzero, hwhole]
      · simp [hpos, Int.ceil_neg, floor_size]

end Double

/-- The integer is an end of the 64-bit integers, and the other number lies beyond it. -/
def BeyondEnd (n : Int64) (t : ℤ) : Prop :=
  n = Int64.maxValue ∧ n.toInt < t ∨ n = Int64.minValue ∧ t < n.toInt

instance (n : Int64) (t : ℤ) : Decidable (BeyondEnd n t) :=
  inferInstanceAs (Decidable (_ ∨ _))

/-- The nearest integer of 64 bits is the number itself, cut off at the ends. -/
theorem toInt_nearestInt64 (t : ℤ) :
    (nearestInt64 t).toInt = max (-0x8000000000000000) (min t 0x7fffffffffffffff) := by
  unfold nearestInt64
  split
  · rw [Int64.toInt_minValue]
    omega
  · split
    · rw [Int64.toInt_maxValue]
      omega
    · rw [Int64.toInt_ofInt_of_le (by omega) (by omega)]
      omega

/-- Cutting off at the ends changes the order with an integer of 64 bits only where it is the end
that has been passed. -/
theorem compare_nearestInt64 (n : Int64) (t : ℤ) :
    compare n.toInt (nearestInt64 t).toInt = if BeyondEnd n t then .eq else compare n.toInt t := by
  have hlow := n.le_toInt
  have hhigh := n.toInt_lt
  have hnearest := toInt_nearestInt64 t
  have hbeyond : BeyondEnd n t ↔ n.toInt = 0x7fffffffffffffff ∧ n.toInt < t ∨
      n.toInt = -0x8000000000000000 ∧ t < n.toInt := by
    rw [BeyondEnd, ← Int64.toInt_inj, ← Int64.toInt_inj, Int64.toInt_maxValue,
      Int64.toInt_minValue]
    exact Iff.rfl
  by_cases h : BeyondEnd n t
  · rw [if_pos h, compare_eq_iff_eq]
    rw [hbeyond] at h
    omega
  · rw [if_neg h]
    rw [hbeyond] at h
    exact Double.compare_congr (by omega) (by omega) (by omega)

namespace Value

/--
**Beside an integer a finite float counts as its truncation.**  The truncation is the exact value
without its fraction, an integer of any size, and the order is that of the integers.  The one
exception is an integer at an end of the 64-bit range and a truncation beyond this end: the two
are equal.
-/
theorem compare?_integer_float (n : Int64) {x : Double} (hx : x.isFinite = true) :
    compare? (.integer n) (.float x) =
      some (if BeyondEnd n (towardZero x.value) then .eq
        else compare n.toInt (towardZero x.value)) := by
  have hnumber : x.toInt64 = nearestInt64 x.truncated := by
    rw [Double.toInt64, Double.isNaN_of_isFinite hx]
    rfl
  rw [compare?, hnumber, compare_nearestInt64, x.truncated_eq]

/-- The first float above all integers of 64 bits is equal to the greatest of them, and is in the
right order with the next one. -/
theorem compare?_integer_float_end :
    towardZero (Double.value ⟨false, 0x43e0000000000000, by decide⟩) = 0x8000000000000000 ∧
      compare? (.integer 0x7fffffffffffffff) (.float ⟨false, 0x43e0000000000000, by decide⟩) =
        some .eq ∧
      compare? (.integer 0x7ffffffffffffffe) (.float ⟨false, 0x43e0000000000000, by decide⟩) =
        some .lt := by
  have htruncated : towardZero (Double.value ⟨false, 0x43e0000000000000, by decide⟩) =
      0x8000000000000000 := by
    rw [← Double.truncated_eq]
    rfl
  refine ⟨htruncated, ?_, ?_⟩
  · rw [compare?_integer_float _ (by decide), htruncated]
    rfl
  · rw [compare?_integer_float _ (by decide), htruncated]
    rfl

end Value

end FieldQuery

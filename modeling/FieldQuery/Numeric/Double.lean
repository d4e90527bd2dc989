/-
Floating-point numbers as data.

A `Double` is a 64-bit binary floating-point number: a sign and a 63-bit magnitude,
the eleven exponent bits above the fifty-two fraction bits.  Magnitudes of numbers
that are not NaN are ordered as the numbers they stand for, so comparing needs no
decoding: `rank` is the magnitude with its sign, and both zeros have rank zero.

A finite magnitude stands for `significand * 2 ^ scale`.
-/
import FieldQuery.Numeric.Integer
import FieldQuery.Numeric.Power

namespace FieldQuery

/-- A 64-bit binary floating-point number. -/
structure Double where
  /-- The sign bit. -/
  negative : Bool
  /-- The exponent bits above the fraction bits. -/
  magnitude : Nat
  magnitude_lt : magnitude < 0x8000000000000000 := by omega
  deriving DecidableEq, Repr

namespace Double

/-- The weight of the sign bit. -/
def signWeight : Nat := 0x8000000000000000

/-- The weight of the last exponent bit, one more than the greatest fraction. -/
def exponentWeight : Nat := 0x10000000000000

/-- The magnitude of the infinities: every exponent bit set, no fraction bit. -/
def infinityMagnitude : Nat := 0x7ff0000000000000

/-- Positive zero is the default number. -/
instance : Inhabited Double := ⟨⟨false, 0, by decide⟩⟩

/-! ### Words -/

/-- The number that a 64-bit word encodes. -/
def ofBits (word : UInt64) : Double :=
  ⟨decide (signWeight ≤ word.toNat), word.toNat % signWeight, Nat.mod_lt _ (by decide)⟩

/-- The 64-bit word that encodes a number. -/
def toBits (x : Double) : UInt64 :=
  UInt64.ofNat ((if x.negative then signWeight else 0) + x.magnitude)

/-- The number with this sign and magnitude, cut to infinity where it is larger. -/
def ofMagnitude (negative : Bool) (magnitude : Nat) : Double :=
  ⟨negative, min magnitude infinityMagnitude,
    Nat.lt_of_le_of_lt (Nat.min_le_right _ _) (by decide)⟩

/-! ### Classes and order -/

/-- Above the infinities there are only the NaNs. -/
def isNaN (x : Double) : Bool := decide (infinityMagnitude < x.magnitude)

/-- Neither an infinity nor a NaN. -/
def isFinite (x : Double) : Bool := decide (x.magnitude < infinityMagnitude)

/-- The magnitude with its sign. -/
def rank (x : Double) : Int :=
  if x.negative then -(x.magnitude : Int) else x.magnitude

/-- The order of two numbers; a NaN is not ordered. -/
def compare? (x y : Double) : Option Ordering :=
  if x.isNaN || y.isNaN then none else some (compare x.rank y.rank)

/-! ### Finite values -/

/-- The exponent bits. -/
def exponentBits (x : Double) : Nat := x.magnitude / exponentWeight

/-- The integer that is scaled: the fraction bits, with the hidden bit of a normal number. -/
def significand (x : Double) : Nat :=
  x.magnitude % exponentWeight + (if x.exponentBits = 0 then 0 else exponentWeight)

/-- The power of two that scales the significand. -/
def scale (x : Double) : Int :=
  if x.exponentBits = 0 then -1074 else (x.exponentBits : Int) - 1075

/-- The magnitude without its fractional part. -/
def wholePart (x : Double) : Nat :=
  x.significand * power 2 x.scale.toNat / power 2 (-x.scale).toNat

/-- The number rounded toward zero; an infinity counts as the power of two `2 ^ 1024`. -/
def truncated (x : Double) : Int :=
  if x.negative then -(x.wholePart : Int) else x.wholePart

/-- The number rounded toward zero to a 64-bit integer.  What lies outside the range of
these integers, an infinity included, goes to the nearest end of it, and a NaN to zero. -/
def toInt64 (x : Double) : Int64 :=
  if x.isNaN then 0 else nearestInt64 x.truncated

end Double

end FieldQuery

/-
Products and quotients of doubles.

The product and the quotient of two finite doubles are quotients of natural numbers, and
the double nearest to each is found by `ofRatio`.  A power of ten up to `10 ^ 308` has a
nearest double too; up to `10 ^ 22` it is the power itself.

`scaled?` is where precision is lost.  A number times a power of ten is rounded after
the power has been, so that the result can differ from the double nearest to the exact
product; and an exponent below `-308` takes several divisions.  Which decimals are
scaled without loss is said in `Proofs.Numeric.Scaled`.
-/
import FieldQuery.Numeric.Rounding

namespace FieldQuery.Double

/-- The magnitude is `numerator / denominator`. -/
def numerator (x : Double) : Nat := x.significand * power 2 x.scale.toNat

/-- A power of two. -/
def denominator (x : Double) : Nat := power 2 (-x.scale).toNat

/-- The product of two finite numbers. -/
def times (x y : Double) : Double :=
  ofRatio (x.negative != y.negative) (x.numerator * y.numerator) (x.denominator * y.denominator)

/-- The quotient of two finite numbers, of which the second is not zero. -/
def divided (x y : Double) : Double :=
  ofRatio (x.negative != y.negative) (x.numerator * y.denominator) (x.denominator * y.numerator)

/-- The number with this sign. -/
def withSign (negative : Bool) (x : Double) : Double := ⟨negative, x.magnitude, x.magnitude_lt⟩

/-- The double nearest to a power of ten. -/
def powerOfTen (n : Nat) : Double := ofRatio false (power 10 n) 1

/-- The greatest power of ten that is not too large for a finite double. -/
def maxPower : Nat := 308

/-- The number multiplied with, or divided by, a power of ten, if it does not become too large.

This is quick and not exact: the power is rounded before the result is.  An exponent below
`-maxPower` is taken in several steps, and each of them is rounded. -/
def scaled? (x : Double) (exponent : Int) : Option Double :=
  if exponent < -maxPower then
    if x.magnitude = 0 then some x
    else scaled? (x.divided (powerOfTen maxPower)) (exponent + maxPower)
  else if exponent < 0 then some (x.divided (powerOfTen (-exponent).toNat))
  else if exponent ≤ maxPower then
    let y := x.times (powerOfTen exponent.toNat)
    if y.isFinite then some y else none
  else if x.magnitude = 0 then some x
  else none
termination_by (-exponent).toNat
decreasing_by
  simp only [maxPower] at *
  omega

end FieldQuery.Double

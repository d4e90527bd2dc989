/-
Rounding to the nearest double.

`Double.ofRatio` gives the double nearest to a quotient of natural numbers, and of two
equally near ones the one whose last bit is even.  The quotient is written as
`significand * 2 ^ scale` with a significand of fifty-three bits, or fewer where the
scale has reached its least value; a significand that rounds up to the next power of two
carries into the exponent bits, which is the right result because they stand above it.

Integers and decimals are quotients, so `ofInt` and `ofDecimal` are instances of it.
-/
import FieldQuery.Numeric.Double

namespace FieldQuery

/-- The integer nearest to `num / den`, an even one where two are equally near. -/
def roundHalfEven (num den : Nat) : Nat :=
  let quotient := num / den
  match compare (2 * (num % den)) den with
  | .lt => quotient
  | .eq => quotient + quotient % 2
  | .gt => quotient + 1

namespace Double

/-- The greatest `e` with `2 ^ e ≤ num / den`, for positive `num` and `den`. -/
def floorLog2 (num den : Nat) : Int :=
  let estimate : Int := (num.log2 : Int) - den.log2
  if den * power 2 estimate.toNat ≤ num * power 2 (-estimate).toNat then estimate
  else estimate - 1

/-- The double nearest to `num / den`, with the given sign. -/
def ofRatio (negative : Bool) (num den : Nat) : Double :=
  if num = 0 then ofMagnitude negative 0
  else
    let scale : Int := max (-1074) (floorLog2 num den - 52)
    let significand :=
      roundHalfEven (num * power 2 (-scale).toNat) (den * power 2 scale.toNat)
    ofMagnitude negative ((scale + 1074).toNat * exponentWeight + significand)

/-- The double nearest to an integer. -/
def ofInt (n : Int) : Double := ofRatio (decide (n < 0)) n.natAbs 1

/-- The double nearest to `digits * 10 ^ exponent`, with the given sign.

Exponents beyond the range of doubles are settled without computing the power: from
`10 ^ 309` on everything is infinite, and below `10 ^ (-324)` everything is zero. -/
def ofDecimal (negative : Bool) (digits : Nat) (exponent : Int) : Double :=
  if digits = 0 then ofMagnitude negative 0
  else if 309 ≤ exponent then ofMagnitude negative infinityMagnitude
  else if exponent + (digits.log2 / 3 + 1 : Nat) ≤ -324 then ofMagnitude negative 0
  else ofRatio negative (digits * power 10 exponent.toNat) (power 10 (-exponent).toNat)

end Double

end FieldQuery

/-
The shortest decimal text of a double.

A decimal reads back as a double when it lies in the interval of values that round to it,
ends included exactly when the significand is even.  Decimals are searched by grids, the
multiples of a power of ten, from coarse to fine: on each grid only the two neighbours of
the value can lie in the interval, and the first grid that has one gives the shortest
digits.  Of two the nearer is taken, the upper one on a tie.  The finest grid holds the value
itself, so the search always ends with a decimal that reads back.

Texts are positional, without exponent, and a whole number has no fraction.
-/
import FieldQuery.Numeric.Digits
import FieldQuery.Numeric.Double

namespace FieldQuery

/-- The number `digits * 10 ^ exponent`. -/
structure Decimal where
  digits : Nat
  exponent : Int
  deriving DecidableEq, Repr

namespace Decimal

/-- Positional text: zeros fill the places that the digits do not reach. -/
def text (d : Decimal) : List Char :=
  let whole := Digits.ofNat d.digits
  if 0 ≤ d.exponent then whole ++ List.replicate d.exponent.toNat '0'
  else
    let places := (-d.exponent).toNat
    let padded := List.replicate (places + 1 - whole.length) '0' ++ whole
    padded.take (padded.length - places) ++ '.' :: padded.drop (padded.length - places)

end Decimal

namespace Double

/-! ### The rounding interval

Values and decimals are compared as integers: `point` and `quarters` bring
`c * 10 ^ g` and `k` quarters of the last place to one common scale.
-/

/-- `c * 10 ^ g` on the common scale of the grid `g`. -/
def point (x : Double) (g : Int) (c : Nat) : Nat :=
  c * power 10 g.toNat * power 2 (2 - x.scale).toNat

/-- `k` quarters of the last place on the common scale of the grid `g`. -/
def quarters (x : Double) (g : Int) (k : Nat) : Nat :=
  k * power 2 (x.scale - 2).toNat * power 10 (-g).toNat

/-- The distance from the value to the lower end of its interval, in quarters of the last
place.  Below a power of two the neighbouring double is only half as far. -/
def lowerQuarters (x : Double) : Nat :=
  if x.significand = exponentWeight ∧ 1 < x.exponentBits then 1 else 2

/-- Whether `c * 10 ^ g` rounds to the magnitude of the number. -/
def covers (x : Double) (g : Int) (c : Nat) : Bool :=
  let here := x.point g c
  let low := x.quarters g (4 * x.significand - x.lowerQuarters)
  let high := x.quarters g (4 * x.significand + 2)
  if x.significand % 2 = 0 then decide (low ≤ here ∧ here ≤ high)
  else decide (low < here ∧ here < high)

/-! ### The search -/

/-- The multiple of `10 ^ g` next to the value that reads back, if there is one. -/
def neighbour? (x : Double) (g : Int) : Option Decimal :=
  let value := x.quarters g (4 * x.significand)
  let below := value / x.point g 1
  match x.covers g below, x.covers g (below + 1) with
  | true, false => some ⟨below, g⟩
  | false, true => some ⟨below + 1, g⟩
  | false, false => none
  | true, true =>
    if value - x.point g below < x.point g (below + 1) - value then some ⟨below, g⟩
    else some ⟨below + 1, g⟩

/-- The finest grid of the search, which holds the value itself. -/
def finestGrid (x : Double) : Int := min x.scale 0

/-- The first decimal that reads back on the `n` grids above the finest one, coarse to fine,
or else the value itself. -/
def searchGrids (x : Double) : Nat → Decimal
  | 0 =>
    ⟨x.quarters x.finestGrid (4 * x.significand) / x.point x.finestGrid 1, x.finestGrid⟩
  | n + 1 =>
    match x.neighbour? (x.finestGrid + (n + 1 : Nat)) with
    | some d => d
    | none => x.searchGrids n

/-- The shortest decimal that reads back as the magnitude of a finite number.  The coarsest
grid of the search is the least power of ten above the whole part. -/
def shortest (x : Double) : Decimal :=
  if x.significand = 0 then ⟨0, 0⟩
  else
    x.searchGrids (((Digits.ofNat x.wholePart).length : Int) - x.finestGrid).toNat

/-- The shortest text of a number; `NaN` has no sign. -/
def text (x : Double) : String :=
  if x.isNaN then "NaN"
  else
    let sign := if x.negative then "-" else ""
    if x.isFinite then sign ++ String.ofList x.shortest.text else sign ++ "inf"

end Double

end FieldQuery

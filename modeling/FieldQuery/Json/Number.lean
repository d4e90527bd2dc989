/-
Numbers in JSON text.

A number has a whole part without needless zeros, perhaps a sign before it, and perhaps a fraction
and an exponent behind it.  Without these two it is an integer if it fits into 64 bits, with or
without sign; negative zero, which no integer is, and all other numbers are floats.

A float is read quickly, and not always as the double nearest to the decimal.  Its digits count
only as far as they make a number of 64 bits; of the others those before the dot are counted, and
those behind it are dropped.  The double nearest to this number is then multiplied with, or divided
by, the power of ten that the exponent and the places before and behind the dot ask for, which is
rounded once more.  A number that becomes too large for a float is refused.
-/
import FieldQuery.Json.Basic
import FieldQuery.Numeric.Arithmetic
import FieldQuery.Numeric.Digits

namespace FieldQuery.Json

/-- Takes digits on while they make a number of 64 bits, and leaves the others. -/
def takeDigits (n : Nat) : List Char → Nat × List Char
  | [] => (n, [])
  | c :: rest =>
    let more := 10 * n + (c.toNat - '0'.toNat)
    if more < 0x10000000000000000 then takeDigits more rest else (n, c :: rest)

/-- The float that a decimal is read as, if it is not too large. -/
def decimal? (negative : Bool) (whole fraction : List Char) (exponent : Int) : Option Double :=
  let (front, counted) := takeDigits 0 whole
  let (significand, dropped) := takeDigits front fraction
  let places : Int := (fraction.length : Int) - dropped.length
  ((Double.ofInt significand).scaled? (exponent + counted.length - places)).map
    (Double.withSign negative)

/-- An integer, or a float in place of one that does not fit. -/
def integer? (negative : Bool) (digits : List Char) : Option Scalar :=
  match takeDigits 0 digits with
  | (n, []) =>
    if !negative then some (.integer n)
    else if n = 0 ∨ 0x8000000000000000 < n then some (.float ((Double.ofInt n).withSign true))
    else some (.integer (-n))
  | _ => (decimal? negative digits [] 0).map .float

/-- Whether digits can stand before the fraction: at least one, and no needless zero. -/
def isWhole : List Char → Bool
  | [] => false
  | [_] => true
  | c :: _ => c != '0'

/-- The exponent that a sign and digits stand for. -/
def exponent? (text : List Char) : Option Int :=
  let (negative, digits) :=
    match text with
    | '-' :: rest => (true, rest)
    | '+' :: rest => (false, rest)
    | _ => (false, text)
  if digits.isEmpty || !digits.all Char.isDigit then none
  else some (Digits.toInt negative digits)

/-- The number that a text stands for, after its sign. -/
def unsigned? (negative : Bool) (text : List Char) : Option Scalar :=
  let whole := text.takeWhile Char.isDigit
  let float? (fraction : List Char) (exponent : Int) : Option Scalar :=
    (decimal? negative whole fraction exponent).map .float
  if !isWhole whole then none
  else
    match text.dropWhile Char.isDigit with
    | [] => integer? negative whole
    | '.' :: more =>
      let fraction := more.takeWhile Char.isDigit
      if fraction.isEmpty then none
      else
        match more.dropWhile Char.isDigit with
        | [] => float? fraction 0
        | mark :: text =>
          if mark = 'e' ∨ mark = 'E' then (exponent? text).bind (float? fraction) else none
    | mark :: text =>
      if mark = 'e' ∨ mark = 'E' then (exponent? text).bind (float? []) else none

/-- The number that a text stands for. -/
def number? : List Char → Option Scalar
  | '-' :: rest => unsigned? true rest
  | text => unsigned? false text

end FieldQuery.Json

/-
Literals.

A literal lexeme stands for a tree without children.  A number with a dot is a float and
needs a digit on one side of it; any other number is an integer and must fit into 64
bits.

The lexeme of a number can be less than a number, such as a sign alone or a sign and a
dot, and an integer can be too large.  What it stands for is decided here and not by
scanning, so that the error can name the whole lexeme.
-/
import FieldQuery.Numeric.Rounding
import FieldQuery.Query.Lexeme
import FieldQuery.Query.Tree

namespace FieldQuery

namespace Tree

/-- The sign of a number, negative or not, and what follows it. -/
def sign : List Char → Bool × List Char
  | '-' :: rest => (true, rest)
  | '+' :: rest => (false, rest)
  | cs => (false, cs)

/-- The integer that digits after a sign stand for, if it fits. -/
def integer? (negative : Bool) (digits : List Char) : Option Tree :=
  if digits.isEmpty || !digits.all Char.isDigit then none
  else (int64? (Digits.toInt negative digits)).map .integer

/-- The float that digits on both sides of a dot stand for. -/
def float? (negative : Bool) (whole fraction : List Char) : Option Tree :=
  let digits := whole ++ fraction
  if digits.isEmpty || !digits.all Char.isDigit then none
  else some (.float (Double.ofDecimal negative (Digits.toNat digits) (-(fraction.length : Int))))

/-- The tree that a number stands for. -/
def number? (text : List Char) : Option Tree :=
  let (negative, body) := sign text
  match body.dropWhile (· != '.') with
  | [] => integer? negative body
  | _ :: fraction => float? negative (body.takeWhile (· != '.')) fraction

end Tree

/-- The tree that a literal lexeme stands for; only numbers can fail to have one. -/
def Lexeme.literal? (l : Lexeme) : Option Tree :=
  match l.token with
  | .bool => some (.bool (l.text == "true"))
  | .char | .string => some (.quoted l.text)
  | _ => Tree.number? l.text.toList

end FieldQuery

/-
JSON data.

A number is held as an integer when it is written without fraction and exponent and fits
into 64 bits, with or without sign, and as a float otherwise.  The entries of an object
stand in ascending order of their keys.

The type does not bound the integers.  That they fit is a matter of how they come about:
from text through `integer?`, and from document values, whose integers have 64 bits with
sign.

Values that hold no others are a type of their own, since the tokens of a text carry
them and the two containers are what the reader builds.
-/
import FieldQuery.Fields
import FieldQuery.Numeric.Double

namespace FieldQuery

/-- A JSON value that holds no other. -/
inductive Json.Scalar where
  | null
  | bool (b : Bool)
  | integer (n : Int)
  | float (x : Double)
  | string (text : String)
  deriving DecidableEq, Repr

/-- A JSON value. -/
inductive Json where
  | scalar (s : Json.Scalar)
  | array (items : List Json)
  | object (fields : List (String × Json))
  deriving Repr

end FieldQuery

/-
The order of two values.

The kind of the left value decides how the right one is read: beside an integer a float
is rounded toward zero, beside a float an integer is rounded to a float, and beside a
string a string loses one layer of double quotation marks.  Any other pair has no order.

None of this is symmetric.  An integer and a float can be equal while the integer stands
on the left and not while the float does.  A NaN on the left has no order with any
number, and on the right of an integer it counts as zero.
-/
import FieldQuery.Numeric.Rounding
import FieldQuery.Text.Strip
import FieldQuery.Value

namespace FieldQuery

namespace Value

/-- The order of a left and a right value, if they have one. -/
def compare? : Value → Value → Option Ordering
  | .integer a, .integer b => some (compare a.toInt b.toInt)
  | .integer a, .float b => some (compare a.toInt b.toInt64.toInt)
  | .float a, .float b => a.compare? b
  | .float a, .integer b => a.compare? (Double.ofInt b.toInt)
  | .string a, .string b => some (compare a (String.ofList (Text.stripEach '"' b.toList)))
  | _, _ => none

end Value

end FieldQuery

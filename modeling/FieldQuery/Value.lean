/-
Document values.

A value is what JSON text can hold, with integers and floats kept apart.  The entries of
an object stand in a list whose order carries no meaning: `canonical` brings the entries
of every object inside a value into ascending order, and everything that can be seen of
a value, its text and its tree of paths, depends on the canonical form alone.

Any list of entries is an object, one with repeated keys included.  This is what a
caller can build, and what reading JSON text gives is always in order.
-/
import FieldQuery.Fields
import FieldQuery.Numeric.Double

namespace FieldQuery

/-- A document value. -/
inductive Value where
  | null
  | bool (b : Bool)
  | integer (n : Int64)
  | float (x : Double)
  | string (text : String)
  | array (items : List Value)
  /-- Entries in any order; of several with one key the last counts. -/
  | object (entries : List (String × Value))
  deriving Repr, Inhabited

namespace Value

/-- The name of a value's kind. -/
def typeName : Value → String
  | .null => "null"
  | .bool _ => "boolean"
  | .integer _ => "integer"
  | .float _ => "float"
  | .string _ => "string"
  | .array _ => "array"
  | .object _ => "object"

mutual

/-- The value with the entries of every object inside it in ascending order. -/
def canonical : Value → Value
  | .array items => .array (canonicalItems items)
  | .object entries => .object (Fields.ofList (canonicalEntries entries))
  | v => v

/-- The canonical forms of the items of an array. -/
def canonicalItems : List Value → List Value
  | [] => []
  | v :: rest => v.canonical :: canonicalItems rest

/-- The entries of an object with their values in canonical form. -/
def canonicalEntries : List (String × Value) → List (String × Value)
  | [] => []
  | (key, v) :: rest => (key, v.canonical) :: canonicalEntries rest

end

end Value

end FieldQuery

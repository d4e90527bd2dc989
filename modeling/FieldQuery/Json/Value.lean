/-
JSON and document values.

A document value has no integers beyond 64 bits with sign, so a larger JSON integer
becomes the nearest float; and JSON has no NaN and no infinities, so these become null.
Everything else is kept.

A JSON number is asked for an integer first and for a double next, in this order, and
the accessors say what it answers.  Only what is no number answers neither, so the null
that stands for a number without an answer never comes about.

The entries of a JSON object are in order and those of a value need not be; writing
brings them in order.
-/
import FieldQuery.Json.Reader
import FieldQuery.Json.Text
import FieldQuery.Value

namespace FieldQuery

namespace Json.Scalar

/-- The integer of 64 bits with sign that a number is, if it is held as an integer and fits. -/
def asInt64? : Scalar → Option Int64
  | .integer n => int64? n
  | _ => none

/-- The double that a number is held as, or the one nearest to an integer. -/
def asDouble? : Scalar → Option Double
  | .integer n => some (Double.ofInt n)
  | .float x => some x
  | _ => none

/-- A number is an integer of 64 bits exactly if it is held as this integer. -/
theorem asInt64?_eq_some_iff {s : Scalar} {i : Int64} :
    s.asInt64? = some i ↔ s = .integer i.toInt := by
  constructor
  · intro h
    cases s with
    | integer n => rw [toInt_of_int64? h]
    | null | bool _ | float _ | string _ => simp [asInt64?] at h
  · intro h
    rw [h, asInt64?, int64?_toInt]

/-- What is held as a double is this double. -/
theorem asDouble?_float (x : Double) : (Scalar.float x).asDouble? = some x := rfl

/-- Numbers and nothing else can be made doubles. -/
theorem isSome_asDouble?_iff {s : Scalar} :
    s.asDouble?.isSome ↔ (∃ n, s = .integer n) ∨ ∃ x, s = .float x := by
  cases s <;> simp [asDouble?]

end Json.Scalar

/-- The document value of a number: an integer if it is one of 64 bits, a float otherwise. -/
def Value.ofNumber (s : Json.Scalar) : Value :=
  ((s.asInt64?.map .integer).or (s.asDouble?.map .float)).getD .null

/-- The document value of a JSON scalar. -/
def Value.ofScalar : Json.Scalar → Value
  | .null => .null
  | .bool b => .bool b
  | .integer n => ofNumber (.integer n)
  | .float x => ofNumber (.float x)
  | .string text => .string text

namespace Value

/-- An integer that is not one of 64 bits with sign becomes the nearest double. -/
theorem ofScalar_integer (n : Int) :
    ofScalar (.integer n) =
      match int64? n with
      | some i => .integer i
      | none => .float (Double.ofInt n) := by
  rw [ofScalar, ofNumber, Json.Scalar.asInt64?]
  cases int64? n <;> rfl

theorem ofScalar_toInt (n : Int64) : ofScalar (.integer n.toInt) = .integer n := by
  rw [ofScalar_integer, int64?_toInt]

/-- A float stays what it is. -/
theorem ofScalar_float (x : Double) : ofScalar (.float x) = .float x := rfl

mutual

/-- The document value of a JSON value. -/
def ofJson : Json → Value
  | .scalar s => ofScalar s
  | .array items => .array (ofItems items)
  | .object fields => .object (ofFields fields)

/-- The document values of the items of an array. -/
def ofItems : List Json → List Value
  | [] => []
  | j :: rest => ofJson j :: ofItems rest

/-- The entries of an object with their document values. -/
def ofFields : List (String × Json) → List (String × Value)
  | [] => []
  | (key, j) :: rest => (key, ofJson j) :: ofFields rest

end

end Value

namespace Json

mutual

/-- The JSON value of a document value. -/
def ofValue : Value → Json
  | .null => .scalar .null
  | .bool b => .scalar (.bool b)
  | .integer n => .scalar (.integer n.toInt)
  | .float x => .scalar (if x.isFinite then .float x else .null)
  | .string text => .scalar (.string text)
  | .array items => .array (ofItems items)
  | .object entries => .object (Fields.ofList (ofEntries entries))

/-- The JSON values of the items of an array. -/
def ofItems : List Value → List Json
  | [] => []
  | v :: rest => ofValue v :: ofItems rest

/-- The entries of an object with their JSON values. -/
def ofEntries : List (String × Value) → List (String × Json)
  | [] => []
  | (key, v) :: rest => (key, ofValue v) :: ofEntries rest

end

end Json

namespace Value

/-- The document value that a JSON text stands for. -/
def parse? (text : String) : Option Value := (Json.parse? text).map ofJson

/-- The JSON text of a document value. -/
def text (layout : Json.Layout) (v : Value) : String := (Json.ofValue v).text layout

end Value

end FieldQuery

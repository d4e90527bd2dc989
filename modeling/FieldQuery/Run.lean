/-
Running a query text on a value.

The text is read first, then the value must be an object, and then the fields are
selected; the first of these steps that fails gives the error.  So a text that is no
query is reported even if the value is no object.

A condition that does not hold is no error.  It gives the outcome `filtered`, which is
told from every value that can be selected, null included.
-/
import FieldQuery.Json.Value
import FieldQuery.Query.Reading
import FieldQuery.Selection

namespace FieldQuery

/-- Why a query gives no outcome. -/
inductive RunError where
  | parse (error : ParseError)
  /-- The value is not an object. -/
  | notObject
  | selection (error : SelectionError)
  deriving DecidableEq, Repr

namespace RunError

/-- What is said to the user. -/
def message : RunError → String
  | .parse error => error.message
  | .notObject => "unable to use the provided object: top-level value must be an object"
  | .selection error => error.message

end RunError

namespace Query

/-- What a query gives on a value. -/
def evaluate (merge : Merge) (q : Query) (v : Value) : Except RunError Outcome :=
  match Document.ofValue? v with
  | none => .error .notObject
  | some d =>
    match q.select merge d with
    | .error e => .error (.selection e)
    | .ok outcome => .ok outcome

/-- What a query text gives on a value. -/
def run (merge : Merge) (text : String) (v : Value) : Except RunError Outcome :=
  match Query.parse text with
  | .error e => .error (.parse e)
  | .ok q => q.evaluate merge v

/-- What a query text gives on a JSON value; nothing when the condition does not hold. -/
def runJson (merge : Merge) (text : String) (j : Json) : Except RunError (Option Json) :=
  match run merge text (Value.ofJson j) with
  | .error e => .error e
  | .ok .filtered => .ok none
  | .ok (.selected v) => .ok (some (Json.ofValue v))

end Query

end FieldQuery

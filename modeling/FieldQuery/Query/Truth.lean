/-
When a condition holds.

Only a comparison with a path on its left side can make a condition true: both sides
must have a value, the values must be ordered, and the relation must accept the order.
A path that the document does not have makes the comparison false, whatever the relation
is.

Two operators are read and never compare.  `contains` holds of nothing, and behind `in`
stands a list whose members are asked as conditions; literals are none, so a list of
literals holds of nothing either.

Truth is total.  Any tree has a truth value on any document, also one that no query text
stands for.
-/
import FieldQuery.Document
import FieldQuery.Query.Tree
import FieldQuery.Value.Compare

namespace FieldQuery

namespace Tree

/-- The value of the right side of a comparison. -/
def operand? (d : Document) : Tree → Option Value
  | .path text => d.get? text
  | .bool b => some (.bool b)
  | .quoted raw => some (.string (String.ofList (Text.stripPair '\'' raw.toList)))
  | .integer n => some (.integer n)
  | .float x => some (.float x)
  | _ => none

/-- Whether the relation holds between a path and an operand. -/
def relates (d : Document) (relation : Relation) (left right : Tree) : Bool :=
  match left with
  | .path text =>
    match d.get? text, right.operand? d with
    | some a, some b => ((a.compare? b).map relation.accepts).getD false
    | _, _ => false
  | _ => false

mutual

/-- Whether a condition holds on a document.  The right side of `in` is read as a list of
conditions, and `contains` never holds. -/
def holds (d : Document) : Tree → Bool
  | .binary .and left right => holds d left && holds d right
  | .binary .or left right => holds d left || holds d right
  | .binary .isIn _ (.sequence items) => holdsAny d items
  | .binary (.compare relation) left right => relates d relation left right
  | _ => false

/-- Whether one of several conditions holds on a document. -/
def holdsAny (d : Document) : List Tree → Bool
  | [] => false
  | t :: rest => holds d t || holdsAny d rest

end

end Tree

end FieldQuery

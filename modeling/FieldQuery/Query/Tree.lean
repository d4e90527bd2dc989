/-
Syntax trees.

A query is a sequence of paths followed by at most one filter, and a condition is built
from binary nodes over paths and literals.  The type allows any tree, so that trees can
also be made by hand.

A text literal keeps its quotation marks and they are taken off when the condition is
asked; so the tree tells the two kinds of quotation marks apart.

Printing writes one line for each node, children one space further in than their parent.
A line names the kind of its node and what it holds, as it stands and without escapes.
-/
import FieldQuery.Numeric.Shortest
import FieldQuery.Query.Token

namespace FieldQuery

/-- A node of a syntax tree with everything below it. -/
inductive Tree where
  /-- The parts of a query, or a list of literals. -/
  | sequence (items : List Tree)
  | path (text : String)
  | bool (b : Bool)
  /-- A text literal with its quotation marks. -/
  | quoted (raw : String)
  | integer (n : Int64)
  | float (x : Double)
  /-- A condition that the document must meet. -/
  | filter (condition : Tree)
  | binary (op : Operator) (left right : Tree)
  deriving Repr, Inhabited

/-- How printed trees name a binary node. -/
def Operator.label : Operator → String
  | .and => "And"
  | .or => "Or"
  | .isIn => "In"
  | .contains => "Contains"
  | .compare relation => "Operation(" ++ relation.symbol ++ ")"

namespace Tree

/-- Whether the tree can stand in a filter. -/
def isCondition : Tree → Bool
  | .binary .. => true
  | _ => false

/-- What the line of a node says. -/
def label : Tree → String
  | .sequence _ => "Sequence"
  | .path text => "Chain(" ++ text ++ ")"
  | .bool b => "Bool(" ++ (if b then "true" else "false") ++ ")"
  | .quoted raw => "Text(" ++ raw ++ ")"
  | .integer n => "Integer(" ++ String.ofList (Digits.ofInt n.toInt) ++ ")"
  | .float x => "Float(" ++ x.text ++ ")"
  | .filter _ => "Where"
  | .binary op _ _ => op.label

/-- The line of a node at this depth. -/
def line (depth : Nat) (t : Tree) : List Char :=
  List.replicate depth ' ' ++ t.label.toList ++ ['\n']

mutual

/-- The lines of a tree at this depth. -/
def lines (depth : Nat) : Tree → List Char
  | .sequence items => line depth (.sequence items) ++ linesAll (depth + 1) items
  | .filter condition =>
    line depth (.filter condition) ++ lines (depth + 1) condition
  | .binary op left right =>
    line depth (.binary op left right) ++ lines (depth + 1) left ++ lines (depth + 1) right
  | t => line depth t

/-- The lines of several trees at this depth. -/
def linesAll (depth : Nat) : List Tree → List Char
  | [] => []
  | t :: rest => lines depth t ++ linesAll depth rest

end

/-- The printed tree. -/
def print (t : Tree) : String := String.ofList (t.lines 0)

end Tree

end FieldQuery

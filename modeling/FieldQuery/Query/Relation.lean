/-
Relations between two values.

A relation accepts some of the three orderings.  The lone `!` is a relation that accepts
none of them.

Values without an order are in no relation, the one that is written `!=` included; this
is said where values are compared and not here.
-/

namespace FieldQuery

/-- A relation that a condition can ask for. -/
inductive Relation where
  | lt
  | le
  | gt
  | ge
  | eq
  | ne
  /-- Accepts nothing. -/
  | not
  deriving DecidableEq, Repr

namespace Relation

/-- How the relation is written. -/
def symbol : Relation → String
  | .lt => "<"
  | .le => "<="
  | .gt => ">"
  | .ge => ">="
  | .eq => "=="
  | .ne => "!="
  | .not => "!"

/-- Whether the relation holds between values that are ordered in this way. -/
def accepts : Relation → Ordering → Bool
  | .lt, o => o == .lt
  | .le, o => o != .gt
  | .gt, o => o == .gt
  | .ge, o => o != .lt
  | .eq, o => o == .eq
  | .ne, o => o != .eq
  | .not, _ => false

end Relation

end FieldQuery

/-
Queries.

A query names the fields that it selects and the condition under which it selects them.
Each query has a syntax tree, and each syntax tree is read as a query: the paths that it
begins with are the selectors, and its first filter is the condition.

Reading a tree drops what is no part of a query, such as paths behind something else and
further filters.  A query is the same after it has been made a tree and read again, but
a tree made by hand need not be.
-/
import FieldQuery.Query.Tree

namespace FieldQuery

/-- The fields to select and the condition that the document must meet. -/
structure Query where
  /-- The paths of the selected fields. -/
  selectors : List String
  condition? : Option Tree

/-- The syntax tree of a query. -/
def Query.toTree (q : Query) : Tree :=
  .sequence (q.selectors.map Tree.path ++ q.condition?.toList.map Tree.filter)

namespace Tree

/-- The paths that a list of trees begins with. -/
def leadingPaths : List Tree → List String
  | .path text :: rest => text :: leadingPaths rest
  | _ => []

/-- The condition of the first filter of a list of trees. -/
def firstFilter? : List Tree → Option Tree
  | [] => none
  | .filter condition :: _ => some condition
  | _ :: rest => firstFilter? rest

/-- The parts of a query that a tree stands for. -/
def parts : Tree → List Tree
  | .sequence items => items
  | t => [t]

/-- The query that a tree stands for. -/
def toQuery (t : Tree) : Query := ⟨leadingPaths t.parts, firstFilter? t.parts⟩

end Tree

end FieldQuery

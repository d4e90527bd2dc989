/-
Selecting fields of a document.

Every selector must be a path of the document, then the condition must hold, and then
the selected fields are put together.  A single field gives its value; several fields
give an object in which each stands under the names of its path.

Fields are placed one after the other, in the order of the selectors.  What happens
where two of them meet is decided by `Merge.inner` alone, by what is kept of the object
that a placement enters: all of it or nothing.

How many fields there are is counted after they are looked up, and repetitions count.
One selector written twice gives an object.
-/
import FieldQuery.Query.Basic
import FieldQuery.Query.Truth

namespace FieldQuery

/-- How several selected fields share the objects on their way. -/
inductive Merge where
  /-- Each field builds the objects on its way anew. -/
  | overwrite
  /-- Each field enters the objects that are there. -/
  | deep
  deriving DecidableEq, Repr

/-- Fields are overwritten where nothing else is asked for. -/
instance : Inhabited Merge := ⟨.overwrite⟩

/-- The entries inside which a field is placed, when this value stands there. -/
def Merge.inner : Merge → Option Value → Fields Value
  | .deep, some (.object fields) => fields
  | _, _ => []

/-- Puts a value under a list of names, the objects on the way shared as `merge` says. -/
def Fields.insertUnder (merge : Merge) (v : Value) : List String → Fields Value → Fields Value
  | [], fields => fields
  | [name], fields => Fields.insert name v fields
  | name :: next :: rest, fields =>
    Fields.alter name
      (fun old => .object (insertUnder merge v (next :: rest) (merge.inner old))) fields

/-- What a query gives on a document. -/
inductive Outcome where
  | selected (v : Value)
  /-- The condition does not hold. -/
  | filtered

/-- Why nothing can be selected. -/
inductive SelectionError where
  /-- The path is selected and not in the document. -/
  | missing (path : String)
  deriving DecidableEq, Repr

/-- What is said to the user. -/
def SelectionError.message : SelectionError → String
  | .missing path => "some requested fields do not exist: " ++ path

namespace Query

/-- The object in which every node stands under the pieces of its path. -/
def merged (merge : Merge) (nodes : List Document.Node) : Value :=
  .object <| nodes.foldl
    (fun fields node => Fields.insertUnder merge node.value node.segments fields) []

/-- The selected fields of a document put together. -/
def gather (merge : Merge) (selectors : List String) (d : Document) : Value :=
  match selectors.filterMap d.find? with
  | [node] => node.value
  | nodes => merged merge nodes

/-- Whether the document meets the condition; without one every document does. -/
def accepts (q : Query) (d : Document) : Bool :=
  match q.condition? with
  | some condition => condition.holds d
  | none => true

/-- What the query gives on a document.  The error names the first selector that is not one of
its paths. -/
def select (merge : Merge) (q : Query) (d : Document) : Except SelectionError Outcome :=
  match q.selectors.find? fun path => !d.contains path with
  | some path => .error (.missing path)
  | none => .ok (if q.accepts d then .selected (gather merge q.selectors d) else .filtered)

end Query

end FieldQuery

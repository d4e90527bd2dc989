/-
Paths.

A path names a node of a document: the names on the way to it, each after a dot.  The
root is the lone dot.  `child` goes one name down, and `segments` gives the names back.

The root is told from other nodes by its path alone.  On names that are empty or hold
dots the two functions are not inverse, and different ways down can have one path: an
empty name below the root gives the path `.` again, and what lies below it is named as
if it lay below the root.  On all other names a path spells its way down, which is the
subject of `Proofs.Document.Spelled`.
-/

namespace FieldQuery.Path

/-- The path of the root. -/
def root : String := "."

/-- The path of the child with this name. -/
def child (parent name : String) : String :=
  if parent = root then "." ++ name else parent ++ "." ++ name

/-- Text cut at its dots: what stands before the first dot, and the pieces after each dot. -/
def cut : List Char → List Char × List (List Char)
  | [] => ([], [])
  | c :: rest =>
    let (piece, pieces) := cut rest
    if c = '.' then ([], piece :: pieces) else (c :: piece, pieces)

/-- The pieces of a path after each of its dots; the root has one empty piece. -/
def segments (path : String) : List String := (cut path.toList).2.map String.ofList

end FieldQuery.Path

/-
Documents.

A document is the arena of an object: the tree of its nodes, and for every path the
first node in preorder that has it.  Two nodes can have one path where keys are empty or
hold dots; the later one can be walked to but not looked up.

The structure holds the fact that its arena was built from an object.  There is no other
way to make a document, so that what is proved of such arenas is a property of every
document and needs no hypothesis.

Entries are brought into canonical order first.  What a document is, the numbers of its
nodes included, therefore depends on the value and not on the order in which its entries
were listed.
-/
import FieldQuery.Document.Arena

namespace FieldQuery

/-- The nodes of an object, by number and by path. -/
structure Document where
  arena : Document.Arena
  /-- Nothing but an object makes a document. -/
  built : ∃ fields : Fields Value, arena = Document.Arena.ofFields fields

namespace Document

/-- The document of a value; only objects have one. -/
def ofValue? : Value → Option Document
  | .object entries => some ⟨.ofFields (Fields.ofList (Value.canonicalEntries entries)), _, rfl⟩
  | _ => none

/-- The node of the whole object. -/
def root (d : Document) : Node := d.arena.tree 0

/-- The node at a path. -/
def find? (d : Document) (path : String) : Option Node :=
  (d.arena.index.lookup path).map d.arena.tree

/-- Whether a node has this path. -/
def contains (d : Document) (path : String) : Bool := (d.find? path).isSome

/-- The value of the node at a path. -/
def get? (d : Document) (path : String) : Option Value := (d.find? path).map Node.value

/-- Every path of the document in ascending order. -/
def paths (d : Document) : List String := d.arena.index.map Prod.fst

/-- The number of nodes, the root included. -/
def size (d : Document) : Nat := d.arena.entries.size

/-- Whether the root is the only node. -/
def isEmpty (d : Document) : Bool := decide (d.size ≤ 1)

end Document

end FieldQuery

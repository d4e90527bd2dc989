/-
The nodes of a document by number.

An arena holds nodes in the order in which they are put in, and for every path the
number of the first node that claimed it.  A node is put in before the nodes below it
and is given its content when they stand behind it: its number is taken and its path is
claimed on the way down, and its children are known on the way up.

So the children of a node have greater numbers than the node itself.  Trees are read
from the last node to the first, and a number that is not greater leads nowhere; the
recursion is on the list of entries, whatever numbers stand in them.  In an arena that
is built here no number is lost in this way.
-/
import FieldQuery.Document.Node

namespace FieldQuery.Document

/-- What a node holds. -/
inductive Content where
  /-- A value that is not an object. -/
  | leaf (value : Value)
  /-- The numbers of the nodes one name further down. -/
  | fields (numbers : List Nat)
  deriving Repr

/-- A node as it stands in an arena. -/
structure Entry where
  name : String
  path : String
  content : Content
  deriving Repr

/-- The tree of a node, given the trees of other nodes by their numbers. -/
def Entry.tree (look : Nat → Option Node) (entry : Entry) : Node :=
  match entry.content with
  | .leaf v => .leaf entry.name entry.path v
  | .fields numbers => .branch entry.name entry.path (numbers.filterMap look)

/-- Nodes by number, and for every path the number of the first node that claimed it. -/
structure Arena where
  entries : Array Entry
  index : Fields Nat
  deriving Repr

namespace Arena

/-! ### Putting in nodes

`push` and `fill` are the only two ways to change an arena.  A path that is claimed
already stays with the node that claimed it.
-/

def empty : Arena := ⟨#[], []⟩

/-- Puts in a node that holds nothing yet and gives its number. -/
def push (name path : String) (arena : Arena) : Nat × Arena :=
  let number := arena.entries.size
  (number, ⟨arena.entries.push ⟨name, path, .fields []⟩,
    Fields.insertIfNew path number arena.index⟩)

/-- Gives the node with a number its content. -/
def fill (number : Nat) (content : Content) (arena : Arena) : Arena :=
  { arena with entries := arena.entries.modify number fun entry => { entry with content } }

mutual

/-- Puts in the nodes below the node at `path` that stands for a value, and gives its content. -/
def insertValue (path : String) (arena : Arena) : Value → Content × Arena
  | .object entries =>
    let (numbers, arena) := insertFields path arena entries
    (.fields numbers, arena)
  | v => (.leaf v, arena)

/-- Puts in the nodes for the entries of an object, each with the nodes below it, and gives
their numbers. -/
def insertFields (parent : String) (arena : Arena) : List (String × Value) → List Nat × Arena
  | [] => ([], arena)
  | (key, v) :: rest =>
    let path := Path.child parent key
    let (number, arena) := arena.push key path
    let (content, arena) := insertValue path arena v
    let (numbers, arena) := insertFields parent (arena.fill number content) rest
    (number :: numbers, arena)

end

/-- The arena of the object with these entries, its own node first. -/
def ofFields (fields : Fields Value) : Arena :=
  let (root, arena) := empty.push "" Path.root
  let (numbers, arena) := insertFields Path.root arena fields
  arena.fill root (.fields numbers)

/-! ### Reading trees -/

/-- The trees of all nodes from a number on, in the order of their numbers. -/
def trees (first : Nat) : List Entry → List Node
  | [] => []
  | entry :: rest =>
    let later := trees (first + 1) rest
    entry.tree (fun number => if first < number then later[number - (first + 1)]? else none)
      :: later

/-- The tree of the node with a number. -/
def tree (arena : Arena) (number : Nat) : Node :=
  (trees 0 arena.entries.toList).getD number (.branch "" Path.root [])

end Arena

end FieldQuery.Document

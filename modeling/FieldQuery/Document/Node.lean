/-
Nodes of a document.

A node is seen as the tree below it.  Every object is a branch with one child for each
of its keys, in ascending order, and every other value, an array included, is a leaf
that holds it.  A node knows its name, the key that leads to it, and its path.

The tree is the meaning of a node and not its storage, which is an `Arena`.  Values and
trees hold the same, and the two functions between them are inverse on canonical values;
the path is the one thing that a tree adds, since it depends on all the names on the way
down.
-/
import FieldQuery.Document.Path
import FieldQuery.Value

namespace FieldQuery.Document

/-- A node of a document. -/
inductive Node where
  | leaf (name path : String) (value : Value)
  | branch (name path : String) (children : List Node)
  deriving Repr

namespace Node

/-- The key that leads to the node; empty for the root. -/
def name : Node → String
  | .leaf name _ _ => name
  | .branch name _ _ => name

/-- The path of the node. -/
def path : Node → String
  | .leaf _ path _ => path
  | .branch _ path _ => path

/-- Whether the node holds a value that is not an object. -/
def isLeaf : Node → Bool
  | .leaf .. => true
  | .branch .. => false

/-- The nodes one name further down. -/
def children : Node → List Node
  | .leaf .. => []
  | .branch _ _ children => children

/-- The pieces of the node's path. -/
def segments (node : Node) : List String := Path.segments node.path

/-! ### Between values and nodes -/

mutual

/-- The node with this name and path for a value. -/
def ofValue (name path : String) : Value → Node
  | .object entries => .branch name path (ofEntries path entries)
  | v => .leaf name path v

/-- The children of the node at `parent` for the entries of an object. -/
def ofEntries (parent : String) : List (String × Value) → List Node
  | [] => []
  | (key, v) :: rest => ofValue key (Path.child parent key) v :: ofEntries parent rest

end

mutual

/-- The value that the node stands for. -/
def value : Node → Value
  | .leaf _ _ v => v
  | .branch _ _ children => .object (entries children)

/-- The entries that a list of nodes stands for. -/
def entries : List Node → List (String × Value)
  | [] => []
  | node :: rest => (node.name, node.value) :: entries rest

end

/-! ### Walking -/

mutual

/-- The node and all nodes below it, each before its children. -/
def preorder : Node → List Node
  | .leaf name path v => [.leaf name path v]
  | .branch name path children => .branch name path children :: preorderAll children

/-- The nodes of a list and all nodes below them. -/
def preorderAll : List Node → List Node
  | [] => []
  | node :: rest => node.preorder ++ preorderAll rest

end

/-- The node reached by choosing children by their number. -/
def descend? (node : Node) : List Nat → Option Node
  | [] => some node
  | i :: rest => node.children[i]?.bind fun child => child.descend? rest

end Node

end FieldQuery.Document

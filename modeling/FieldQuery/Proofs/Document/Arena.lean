/-
What the arena of an object holds.

The nodes for the entries of an object take up one segment of the arena, each of them in
front of the nodes below it, and what is put in later neither moves nor changes them.
`stored` is that segment, `insertFields_eq` says that putting in the entries appends it,
and `trees_stored` that the trees are read back from it.  So the root shows the tree of
the object, `root_eq`, and a path belongs to the first node in preorder that has it,
`find?_eq`.

What makes this an argument is that a node is put in twice: it is pushed empty, so that
it has a number, then the nodes below it are pushed, and only then is it given their
numbers.  In between the arena holds a node that is not yet what it will be.
`fill_extend_push` disposes of that once and for all: filling the node at the end is the
same as pushing it full at the beginning, since nothing pushed behind it has looked at
it.  After that the arena is only ever extended by nodes in preorder.

From here on a document is a tree with its nodes in a list.  Nothing that imports this
module has to know of numbers, apart from the module that is about them.
-/
import FieldQuery.Document

namespace FieldQuery.Document

namespace Node

/-! ### Nodes and their numbers

A node takes up as many numbers as there are nodes in its tree, so the numbers of
siblings are not one apart.
-/

/-- The numbers of nodes if the first has this one and each is followed by the nodes below it. -/
def numbers (first : Nat) : List Node → List Nat
  | [] => []
  | node :: rest => first :: numbers (first + node.preorder.length) rest

/-- The content of a node whose children are numbered from this number on. -/
def content (first : Nat) : Node → Content
  | .leaf _ _ v => .leaf v
  | .branch _ _ children => .fields (numbers first children)

theorem preorder_eq_cons (node : Node) : node.preorder = node :: preorderAll node.children := by
  cases node with
  | leaf name path v => rfl
  | branch name path children => rfl

theorem name_ofValue (name path : String) (v : Value) : (ofValue name path v).name = name := by
  cases v <;> rfl

theorem path_ofValue (name path : String) (v : Value) : (ofValue name path v).path = path := by
  cases v <;> rfl

end Node

namespace Arena

open Node

/-! ### Putting in nodes

Pushing, filling and claiming a path are three different things that happen to an arena.
`extend` does all three for nodes in preorder at once, and appending nodes is extending
twice.
-/

/-- Nodes in preorder as they stand in an arena, with numbers from this one on. -/
def stored (first : Nat) : List Node → List Entry
  | [] => []
  | node :: rest => ⟨node.name, node.path, node.content (first + 1)⟩ :: stored (first + 1) rest

/-- Lets nodes claim their paths, one after the other, with numbers from this one on. -/
def claim (first : Nat) (index : Fields Nat) : List Node → Fields Nat
  | [] => index
  | node :: rest => claim (first + 1) (Fields.insertIfNew node.path first index) rest

/-- The arena with nodes in preorder behind what it holds. -/
def extend (arena : Arena) (nodes : List Node) : Arena :=
  ⟨arena.entries ++ (stored arena.entries.size nodes).toArray,
    claim arena.entries.size arena.index nodes⟩

theorem length_stored (first : Nat) (nodes : List Node) :
    (stored first nodes).length = nodes.length := by
  induction nodes generalizing first with
  | nil => rfl
  | cons node rest ih => rw [stored, List.length_cons, ih, List.length_cons]

theorem stored_append (first : Nat) (nodes more : List Node) :
    stored first (nodes ++ more) = stored first nodes ++ stored (first + nodes.length) more := by
  induction nodes generalizing first with
  | nil => rfl
  | cons node rest ih =>
      rw [List.cons_append, stored, ih, stored, List.length_cons, Nat.add_assoc, Nat.add_comm 1]
      rfl

theorem claim_append (first : Nat) (index : Fields Nat) (nodes more : List Node) :
    claim first index (nodes ++ more) =
      claim (first + nodes.length) (claim first index nodes) more := by
  induction nodes generalizing first index with
  | nil => rfl
  | cons node rest ih =>
      rw [List.cons_append, claim, ih, claim, List.length_cons, Nat.add_assoc, Nat.add_comm 1]

theorem size_extend (arena : Arena) (nodes : List Node) :
    (arena.extend nodes).entries.size = arena.entries.size + nodes.length := by
  simp only [extend, Array.size_append, List.size_toArray, length_stored]

/-- A change at the place behind some elements is a change of the next one. -/
theorem modify_length {α : Type} (f : α → α) (xs : List α) (x : α) (ys : List α) :
    (xs ++ x :: ys).modify xs.length f = xs ++ f x :: ys := by
  induction xs with
  | nil => rfl
  | cons y rest ih => exact congrArg (y :: ·) ih

theorem extend_nil (arena : Arena) : arena.extend [] = arena := by
  rw [extend, stored, Array.append_empty, claim]

theorem extend_append (arena : Arena) (nodes more : List Node) :
    arena.extend (nodes ++ more) = (arena.extend nodes).extend more := by
  rw [extend, extend, size_extend, stored_append, claim_append, ← List.append_toArray,
    ← Array.append_assoc]
  rfl

theorem push_eq (name path : String) (arena : Arena) :
    arena.push name path = (arena.entries.size, (arena.push name path).2) := rfl

theorem size_push (name path : String) (arena : Arena) :
    (arena.push name path).2.entries.size = arena.entries.size + 1 := Array.size_push _

/-- What is put in behind a node does not disturb it: given its content at last, it stands there
as if it had been put in with it. -/
theorem fill_extend_push (arena : Arena) (node : Node) (below : List Node) :
    ((arena.push node.name node.path).2.extend below).fill arena.entries.size
      (node.content (arena.entries.size + 1)) = arena.extend (node :: below) := by
  have hentries : ((arena.entries.push ⟨node.name, node.path, .fields []⟩ ++
      (stored (arena.entries.size + 1) below).toArray).modify arena.entries.size
        fun entry => { entry with content := node.content (arena.entries.size + 1) }) =
      arena.entries ++ (stored arena.entries.size (node :: below)).toArray := by
    refine Array.ext' ?_
    rw [Array.toList_modify, Array.toList_append, Array.toList_append, Array.toList_push,
      List.append_assoc, List.singleton_append, ← Array.length_toList, modify_length]
    rfl
  rw [extend, size_push]
  exact congrArg (Arena.mk · _) hentries

mutual

/-- The nodes below the node of a value are put in behind it. -/
theorem insertValue_eq (name path : String) (arena : Arena) : ∀ v : Value,
    insertValue path arena v =
      ((ofValue name path v).content arena.entries.size,
        arena.extend (preorderAll (ofValue name path v).children))
  | .object fields => by
      rw [insertValue, insertFields_eq path arena fields]
      rfl
  | .null | .bool _ | .integer _ | .float _ | .string _ | .array _ => by
      simp only [insertValue, ofValue, children, preorderAll, extend_nil, content]

/-- The nodes for the entries of an object are put in behind what there is. -/
theorem insertFields_eq (parent : String) (arena : Arena) : ∀ fields : List (String × Value),
    insertFields parent arena fields =
      (numbers arena.entries.size (ofEntries parent fields),
        arena.extend (preorderAll (ofEntries parent fields)))
  | [] => by
      rw [insertFields, ofEntries, preorderAll, extend_nil]
      rfl
  | (key, v) :: rest => by
      -- the node, the nodes below it, its content, and then the other entries
      have hvalue := insertValue_eq key (Path.child parent key)
        (arena.push key (Path.child parent key)).2 v
      have hfilled := fill_extend_push arena (ofValue key (Path.child parent key) v)
        (preorderAll (ofValue key (Path.child parent key) v).children)
      rw [name_ofValue, path_ofValue, ← preorder_eq_cons] at hfilled
      rw [size_push] at hvalue
      rw [insertFields, push_eq]
      simp only [hvalue, hfilled, insertFields_eq parent _ rest, size_extend]
      rw [ofEntries, numbers, preorderAll, extend_append]

end

theorem ofFields_eq (fields : Fields Value) :
    ofFields fields = empty.extend (ofValue "" Path.root (.object fields)).preorder := by
  have hfields := insertFields_eq Path.root (empty.push "" Path.root).2 fields
  rw [ofFields, push_eq]
  simp only [hfields]
  exact fill_extend_push empty (ofValue "" Path.root (.object fields)) _

/-! ### Reading trees

The trees are read from the last entry to the first, because the children of an entry
have greater numbers.  So `trees` on a suffix of the segment is known before the entry
in front of it is looked at.
-/

/-- The children are read back by their numbers. -/
theorem filterMap_numbers {look : Nat → Option Node} {first : Nat} {nodes more : List Node}
    (h : ∀ i, look (first + i) = (preorderAll nodes ++ more)[i]?) :
    (numbers first nodes).filterMap look = nodes := by
  induction nodes generalizing first with
  | nil => rfl
  | cons node rest ih =>
      have hnode : look first = some node := by
        rw [← Nat.add_zero first, h 0, preorderAll, preorder_eq_cons]
        rfl
      have hrest : ∀ i, look (first + node.preorder.length + i) =
          (preorderAll rest ++ more)[i]? := by
        intro i
        rw [Nat.add_assoc, h, preorderAll, List.append_assoc,
          List.getElem?_append_right (Nat.le_add_right _ _), Nat.add_sub_cancel_left]
      rw [numbers, List.filterMap_cons, hnode, ih hrest]

/-- A node is read back if the nodes below it are, which stand right behind it. -/
theorem tree_content (first : Nat) {look : Nat → Option Node} {node : Node} {more : List Node}
    (h : ∀ i, look (first + 1 + i) = (preorderAll node.children ++ more)[i]?) :
    Entry.tree look ⟨node.name, node.path, node.content (first + 1)⟩ = node := by
  cases node with
  | leaf name path v => rfl
  | branch name path children => exact congrArg (Node.branch name path) (filterMap_numbers h)

mutual

/-- From the segment of a node all its trees are read back. -/
theorem trees_stored (first : Nat) (more : List Entry) : ∀ node : Node,
    trees first (stored first node.preorder ++ more) =
      node.preorder ++ trees (first + node.preorder.length) more
  | .leaf name path v => rfl
  | .branch name path children => by
      have hlater := trees_storedAll (first + 1) more children
      rw [preorder, stored, List.cons_append, trees, hlater, tree_content first]
      · rw [List.length_cons, List.cons_append, Nat.add_assoc, Nat.add_comm 1]
      · intro i
        rw [if_pos (by omega), Nat.add_sub_cancel_left]
        rfl

theorem trees_storedAll (first : Nat) (more : List Entry) : ∀ nodes : List Node,
    trees first (stored first (preorderAll nodes) ++ more) =
      preorderAll nodes ++ trees (first + (preorderAll nodes).length) more
  | [] => rfl
  | node :: rest => by
      rw [preorderAll, stored_append, List.append_assoc, trees_stored first _ node,
        trees_storedAll _ more rest, List.length_append, List.append_assoc, Nat.add_assoc]

end

theorem trees_stored_preorder (node : Node) : trees 0 (stored 0 node.preorder) = node.preorder := by
  have htrees := trees_stored 0 [] node
  rwa [List.append_nil, trees, List.append_nil] at htrees

theorem toList_entries_ofFields (fields : Fields Value) :
    (ofFields fields).entries.toList =
      stored 0 (ofValue "" Path.root (.object fields)).preorder := by
  rw [ofFields_eq, extend, Array.toList_append]
  rfl

/-- The trees of the nodes of an object are those of its own tree in preorder. -/
theorem trees_ofFields (fields : Fields Value) :
    trees 0 (ofFields fields).entries.toList =
      (ofValue "" Path.root (.object fields)).preorder := by
  rw [toList_entries_ofFields, trees_stored_preorder]

/-! ### Looking up paths

The index is an ordered map that is only ever inserted into where a path is new.  What
it holds of a path is the first node that claimed it, which is the first in preorder,
and no invariant about the arena is needed for that.
-/

/-- Of the nodes that claim a path the first keeps it, unless it was claimed before. -/
theorem map_lookup_claim {first : Nat} {index : Fields Nat} (hascending : index.Ascending)
    {look : Nat → Node} {nodes : List Node}
    (hlook : ∀ i node, nodes[i]? = some node → look (first + i) = node) (path : String) :
    ((claim first index nodes).lookup path).map look =
      ((index.lookup path).map look).or (nodes.find? fun node => path == node.path) := by
  induction nodes generalizing first index with
  | nil => exact Option.or_none.symm
  | cons node rest ih =>
      have hnode : look first = node := hlook 0 node rfl
      have hrest : ∀ i n, rest[i]? = some n → look (first + 1 + i) = n := by
        intro i n hn
        rw [Nat.add_assoc, Nat.add_comm 1]
        exact hlook (i + 1) n hn
      have hkept : (Fields.insertIfNew node.path first index).Ascending := hascending.alter _ _
      rw [claim, ih hkept hrest, Fields.insertIfNew, List.find?_cons]
      by_cases hpath : path = node.path
      · rw [hpath, Fields.lookup_alter_self _ _ hascending, beq_self_eq_true]
        cases index.lookup node.path with
        | none => exact congrArg some hnode
        | some number => rfl
      · rw [Fields.lookup_alter_of_ne _ hpath, beq_false_of_ne hpath]

theorem ascending_claim (first : Nat) {index : Fields Nat} (h : index.Ascending)
    (nodes : List Node) : (claim first index nodes).Ascending := by
  induction nodes generalizing first index with
  | nil => exact h
  | cons node rest ih => exact ih (first + 1) (h.alter _ _)

theorem index_ofFields (fields : Fields Value) :
    (ofFields fields).index = claim 0 [] (ofValue "" Path.root (.object fields)).preorder := by
  rw [ofFields_eq]
  rfl

theorem ascending_index (fields : Fields Value) : (ofFields fields).index.Ascending := by
  rw [index_ofFields]
  exact ascending_claim 0 List.Pairwise.nil _

theorem tree_ofFields_zero (fields : Fields Value) :
    (ofFields fields).tree 0 = ofValue "" Path.root (.object fields) := by
  rw [tree, trees_ofFields]
  rfl

/-- A path has the first node in preorder that claims it. -/
theorem map_lookup_ofFields (fields : Fields Value) (path : String) :
    ((ofFields fields).index.lookup path).map (ofFields fields).tree =
      (ofValue "" Path.root (.object fields)).preorder.find? fun node => path == node.path := by
  have hlook : ∀ i node, (ofValue "" Path.root (.object fields)).preorder[i]? = some node →
      (ofFields fields).tree (0 + i) = node := by
    intro i node hnode
    rw [tree, trees_ofFields, Nat.zero_add, List.getD_eq_getElem?_getD, hnode]
    rfl
  rw [index_ofFields, map_lookup_claim List.Pairwise.nil hlook]
  rfl

end Arena

/-- The root shows the tree of the object. -/
theorem root_eq {v : Value} {d : Document} (hd : ofValue? v = some d) :
    d.root = Node.ofValue "" Path.root v.canonical := by
  cases v with
  | object entries =>
      obtain rfl := Option.some.inj hd
      exact Arena.tree_ofFields_zero _
  | null | bool _ | integer _ | float _ | string _ | array _ => simp [ofValue?] at hd

/-- The node at a path is the first one that has it. -/
theorem find?_eq (d : Document) (path : String) :
    d.find? path = d.root.preorder.find? fun node => path == node.path := by
  obtain ⟨_, fields, rfl⟩ := d
  show _ = ((Arena.ofFields fields).tree 0).preorder.find? _
  rw [Arena.tree_ofFields_zero]
  exact Arena.map_lookup_ofFields fields path

theorem path_of_find? {d : Document} {path : String} {node : Node}
    (h : d.find? path = some node) : node.path = path := by
  rw [find?_eq] at h
  have hpath : (path == node.path) = true := by simpa using List.find?_some h
  exact (beq_iff_eq.mp hpath).symm

theorem contains_eq_isSome (d : Document) (path : String) :
    d.contains path = (d.get? path).isSome := by
  rw [contains, get?, Option.isSome_map]

theorem exists_get? {d : Document} {path : String} (h : d.contains path = true) :
    ∃ v, d.get? path = some v := by
  rwa [← Option.isSome_iff_exists, ← contains_eq_isSome]

end FieldQuery.Document

/-
The index of a document.

Walks by number list the nodes of a document depth first when they are ordered as words
are: a walk that stops earlier on the same way comes first, and otherwise the first
number that differs decides.  Of the nodes with one path the index keeps the one that
the first walk reaches, `exists_first_of_find?`.

The two orders of the nodes, by walk and by position in the preorder, agree because both
are given by the same recursion over the tree.  The proof does not compare them: it
looks for the node in the tree, and each time it goes into a child it puts the number of
the child in front of the walk. What has been skipped on the left has no node with the
path, which is just what makes the walk the first.

The rest is about the keys of the index: they ascend, they are the paths of the nodes,
and the empty text is none of them.
-/
import FieldQuery.Proofs.Document.Spelled
import FieldQuery.Proofs.Document.Walk
import FieldQuery.Proofs.Value.Ordered

namespace FieldQuery

namespace Document

namespace Node

/-! ### Walks and the list of all nodes

A node is in the preorder of a tree if and only if a walk reaches it.  Only one half is
needed here; the other comes with the first node.
-/

/-- The walk from a list of nodes that chooses one of them first. -/
def descendAll? (nodes : List Node) : List Nat → Option Node
  | [] => none
  | i :: rest => nodes[i]?.bind fun node => node.descend? rest

theorem mem_preorderAll {nodes : List Node} {n : Node} :
    n ∈ preorderAll nodes ↔ ∃ node ∈ nodes, n ∈ node.preorder := by
  induction nodes with
  | nil => simp [preorderAll]
  | cons node rest ih => rw [preorderAll, List.mem_append, ih, List.exists_mem_cons_iff]

/-- What a walk reaches is among all nodes. -/
theorem mem_preorder_of_descend? {numbers : List Nat} {node n : Node}
    (h : node.descend? numbers = some n) : n ∈ node.preorder := by
  rw [preorder_eq_cons]
  induction numbers generalizing node with
  | nil =>
      obtain rfl := Option.some.inj h
      exact List.mem_cons_self
  | cons i rest ih =>
      obtain ⟨child, hchild, hwalk⟩ := Option.bind_eq_some_iff.mp h
      refine List.mem_cons_of_mem _ (mem_preorderAll.mpr ⟨child, ?_, ?_⟩)
      · exact List.mem_of_getElem? hchild
      · rw [preorder_eq_cons]
        exact ih hwalk

/-! ### The first node with a path

`First` compares a walk with all walks, not with all nodes, so that it can be put
together from the children without knowing where in the preorder they stand.
-/

/-- The walk reaches a node with this path, and every other walk that does comes later depth
first: further down on the same way, or on a way that parts from it to a later child. -/
structure First (walk : List Nat → Option Node) (path : String) (numbers : List Nat)
    (node : Node) : Prop where
  reaches : walk numbers = some node
  path_eq : node.path = path
  least : ∀ other n, walk other = some n → n.path = path →
    other = numbers ∨ List.Lex (· < ·) numbers other

theorem first_self (node : Node) : First node.descend? node.path [] node := by
  refine ⟨rfl, rfl, ?_⟩
  intro other n _ _
  cases other with
  | nil => exact .inl rfl
  | cons i rest => exact .inr .nil

/-- A node that does not have the path itself leaves it to its children. -/
theorem First.below {path : String} {numbers : List Nat} {node n : Node}
    (h : First (descendAll? node.children) path numbers n) (hne : node.path ≠ path) :
    First node.descend? path numbers n := by
  have hwalk : ∀ other m, node.descend? other = some m → m.path = path →
      descendAll? node.children other = some m := by
    intro other m hother hm
    cases other with
    | nil =>
        obtain rfl := Option.some.inj hother
        exact absurd hm hne
    | cons i rest => exact hother
  refine ⟨?_, h.path_eq, fun other m hother hm => h.least other m (hwalk other m hother hm) hm⟩
  cases numbers with
  | nil => exact absurd h.reaches (by simp [descendAll?])
  | cons i rest => exact h.reaches

/-- The first node of a list goes before the others. -/
theorem First.head {path : String} {numbers : List Nat} {node n : Node}
    (h : First node.descend? path numbers n) (nodes : List Node) :
    First (descendAll? (node :: nodes)) path (0 :: numbers) n := by
  refine ⟨h.reaches, h.path_eq, ?_⟩
  intro other m hother hm
  cases other with
  | nil => exact absurd hother (by simp [descendAll?])
  | cons i rest =>
      cases i with
      | zero =>
          rcases h.least rest m hother hm with rfl | hlex
          · exact .inl rfl
          · exact .inr (.cons hlex)
      | succ i => exact .inr (.rel (Nat.succ_pos i))

/-- What no node below the first one has is left to the others. -/
theorem First.tail {path : String} {numbers : List Nat} {nodes : List Node} {n : Node}
    (h : First (descendAll? nodes) path numbers n) {node : Node}
    (hnone : ∀ m ∈ node.preorder, m.path ≠ path) :
    ∃ numbers', First (descendAll? (node :: nodes)) path numbers' n := by
  cases numbers with
  | nil => exact absurd h.reaches (by simp [descendAll?])
  | cons i rest =>
      refine ⟨(i + 1) :: rest, h.reaches, h.path_eq, ?_⟩
      intro other m hother hm
      cases other with
      | nil => exact absurd hother (by simp [descendAll?])
      | cons j more =>
          cases j with
          | zero => exact absurd hm (hnone m (mem_preorder_of_descend? hother))
          | succ j =>
              rcases h.least (j :: more) m hother hm with heq | hlex
              · obtain ⟨rfl, rfl⟩ := List.cons.inj heq
                exact .inl rfl
              · cases hlex with
                | rel hlt => exact .inr (.rel (Nat.succ_lt_succ hlt))
                | cons hrest => exact .inr (.cons hrest)

mutual

/-- The first of all nodes that has a path is the one that the first walk reaches. -/
theorem exists_first_of_find? (path : String) : ∀ (root : Node) {node : Node},
    (root.preorder.find? fun n => path == n.path) = some node →
      ∃ numbers, First root.descend? path numbers node
  | .leaf name text v, node, h => by
      obtain rfl := List.mem_singleton.mp (List.mem_of_find?_eq_some h)
      obtain rfl : path = text := by simpa [Node.path] using List.find?_some h
      exact ⟨[], first_self _⟩
  | .branch name text children, node, h => by
      rw [preorder, List.find?_cons] at h
      by_cases hpath : path = text
      · subst hpath
        obtain rfl : branch name path children = node := by simpa [Node.path] using h
        exact ⟨[], first_self _⟩
      · have hself : (path == (branch name text children).path) = false := beq_false_of_ne hpath
        rw [hself] at h
        obtain ⟨numbers, hfirst⟩ := exists_first_of_find?_preorderAll path children h
        exact ⟨numbers, First.below hfirst (Ne.symm hpath)⟩

theorem exists_first_of_find?_preorderAll (path : String) : ∀ (nodes : List Node) {node : Node},
    ((preorderAll nodes).find? fun n => path == n.path) = some node →
      ∃ numbers, First (descendAll? nodes) path numbers node
  | [], node, h => by simp [preorderAll] at h
  | head :: nodes, node, h => by
      rw [preorderAll, List.find?_append] at h
      cases hhead : head.preorder.find? fun n => path == n.path with
      | some n =>
          rw [hhead, Option.some_or] at h
          obtain rfl := Option.some.inj h
          obtain ⟨numbers, hfirst⟩ := exists_first_of_find? path head hhead
          exact ⟨0 :: numbers, hfirst.head nodes⟩
      | none =>
          rw [hhead, Option.none_or] at h
          obtain ⟨numbers, hfirst⟩ := exists_first_of_find?_preorderAll path nodes h
          refine hfirst.tail fun m hm heq => ?_
          exact absurd (beq_iff_eq.mpr heq.symm) (List.find?_eq_none.mp hhead m hm)

end

/-! ### Children and paths

That the first walk goes through the least key rests on the children being in order.
-/

theorem names_ofEntries (parent : String) (fields : Fields Value) :
    (ofEntries parent fields).map name = fields.map Prod.fst := by
  induction fields with
  | nil => rfl
  | cons entry rest ih => rw [ofEntries, List.map_cons, List.map_cons, ih, name_ofValue]

theorem ascending_children_of_ordered (name path : String) {v : Value} (h : v.Ordered) :
    ((ofValue name path v).children.map Node.name).Pairwise (· < ·) := by
  cases v with
  | object entries =>
      show ((ofEntries path entries).map Node.name).Pairwise (· < ·)
      rw [names_ofEntries]
      exact (Value.ordered_object_iff.mp h).1.keys
  | null | bool _ | integer _ | float _ | string _ | array _ => exact List.Pairwise.nil

/-- The children of the node of a value ascend by name. -/
theorem ascending_children (name path : String) (v : Value) :
    ((ofValue name path v.canonical).children.map Node.name).Pairwise (· < ·) :=
  ascending_children_of_ordered name path v.ordered_canonical

end Node

/-! ### What the index holds

With the first node of a path everything about the index is a statement about the tree.
-/

/-- A walk from the root ends at the node of what some keys lead to. -/
theorem exists_of_descend? {entries : List (String × Value)} {d : Document}
    (hd : ofValue? (.object entries) = some d) {numbers : List Nat} {node : Node}
    (h : d.root.descend? numbers = some node) :
    ∃ keys w, (Value.object entries).choose? numbers = some keys ∧
      (Value.object entries).at? keys = some w ∧
      node = Node.ofValue (keys.getLastD "") (keys.foldl Path.child Path.root) w.canonical := by
  rw [root_eq hd, Node.descend?_ofValue] at h
  obtain ⟨keys, hkeys, hmap⟩ := Option.bind_eq_some_iff.mp h
  obtain ⟨w, hw, rfl⟩ := Option.map_eq_some_iff.mp hmap
  exact ⟨keys, w, hkeys, hw, rfl⟩

theorem exists_first_of_mem {d : Document} {path : String} {node : Node}
    (h : d.find? path = some node) :
    ∃ numbers, Node.First d.root.descend? path numbers node := by
  rw [find?_eq] at h
  exact Node.exists_first_of_find? path d.root h

/-- A path is found exactly if a walk reaches a node with it. -/
theorem contains_iff (d : Document) (path : String) :
    d.contains path = true ↔
      ∃ numbers node, d.root.descend? numbers = some node ∧ node.path = path := by
  rw [contains, Option.isSome_iff_exists]
  constructor
  · rintro ⟨node, hnode⟩
    obtain ⟨numbers, hfirst⟩ := exists_first_of_mem hnode
    exact ⟨numbers, node, hfirst.reaches, hfirst.path_eq⟩
  · rintro ⟨numbers, node, hwalk, rfl⟩
    rw [← Option.isSome_iff_exists, find?_eq, List.find?_isSome]
    exact ⟨node, Node.mem_preorder_of_descend? hwalk, beq_self_eq_true _⟩

/-- The keys of the index are the paths that are found. -/
theorem mem_paths_iff (d : Document) (path : String) :
    path ∈ d.paths ↔ d.contains path = true := by
  rw [paths, ← Fields.isSome_lookup_iff, contains, find?, Option.isSome_map]

theorem ascending_paths (d : Document) : d.paths.Pairwise (· < ·) := by
  obtain ⟨_, fields, rfl⟩ := d
  exact (Arena.ascending_index fields).keys

/-- The root is found at its path, whatever else has this path. -/
theorem find?_root {entries : List (String × Value)} {d : Document}
    (hd : ofValue? (.object entries) = some d) : d.find? Path.root = some d.root := by
  rw [find?_eq, root_eq hd]
  rfl

/-- The empty text is not the path of a node. -/
theorem contains_empty {entries : List (String × Value)} {d : Document}
    (hd : ofValue? (.object entries) = some d) : d.contains "" = false := by
  rw [← Bool.not_eq_true, contains_iff]
  rintro ⟨numbers, node, hwalk, hpath⟩
  obtain ⟨keys, w, -, -, rfl⟩ := exists_of_descend? hd hwalk
  rw [Node.path_ofValue] at hpath
  have hhead : (keys.foldl Path.child Path.root).toList.head? = some '.' :=
    Path.head_foldl_child keys rfl
  simp [hpath] at hhead

/--
**The index holds the paths of the nodes, each with the first node that has it.**  First means
the one that the first walk reaches, the children of every node being in ascending order of
their names.  What is not the path of a node is not found.  The paths are listed in ascending
order, the root stands at its own path, and nothing stands at the empty text.
-/
theorem find?_walk (entries : List (String × Value)) :
    ∃ d, ofValue? (.object entries) = some d ∧
      (∀ numbers node, d.root.descend? numbers = some node →
        (node.children.map Node.name).Pairwise (· < ·)) ∧
      (∀ path,
        (d.contains path = true ↔
          ∃ numbers node, d.root.descend? numbers = some node ∧ node.path = path) ∧
        (d.contains path = true → ∃ numbers node,
          Node.First d.root.descend? path numbers node ∧ d.find? path = some node ∧
            d.get? path = some node.value) ∧
        (d.contains path = false → d.find? path = none ∧ d.get? path = none)) ∧
      d.paths.Pairwise (· < ·) ∧ (∀ path, path ∈ d.paths ↔ d.contains path = true) ∧
      d.find? Path.root = some d.root ∧ d.contains "" = false := by
  obtain ⟨d, hd⟩ : ∃ d, ofValue? (.object entries) = some d := ⟨_, rfl⟩
  refine ⟨d, hd, ?_, fun path => ⟨d.contains_iff path, ?_, ?_⟩, d.ascending_paths,
    d.mem_paths_iff, find?_root hd, contains_empty hd⟩
  · intro numbers node hwalk
    obtain ⟨keys, w, -, -, rfl⟩ := exists_of_descend? hd hwalk
    exact Node.ascending_children _ _ w
  · intro hcontains
    obtain ⟨node, hnode⟩ := Option.isSome_iff_exists.mp hcontains
    obtain ⟨numbers, hfirst⟩ := exists_first_of_mem hnode
    refine ⟨numbers, node, hfirst, hnode, ?_⟩
    rw [get?, hnode]
    rfl
  · intro hcontains
    have hnone : d.find? path = none := by simpa [contains] using hcontains
    refine ⟨hnone, ?_⟩
    rw [get?, hnone]
    rfl

end Document

end FieldQuery

/-
The nodes of an arena by number.

Seen from outside, an arena is an array of entries that name each other by number.
`WellFormed` says what the numbers are: they lead forwards and stay inside, all but the
first are the child of exactly one entry, and they count the nodes as a walk visits them
depth first.  A number is all that an entry knows of its children, so everything that
reads a document by following numbers rests on this.

What makes it true is the order of the pushes.  An entry is pushed before the entries
below it and is given its numbers after they are there, so the nodes below a node stand
right behind it, as they do in the preorder of the tree.  While the arena is being built
this holds of the segments that are finished and not of the whole, and so everything
here is derived for a segment: `Holds` says that nodes stand in an arena from a number
on, the nodes of a tree hold the nodes below them, `Holds.of_getElem?`, and the children
that an entry numbers are where their numbers say, `Holds.children`.  The whole arena is
the segment of the root.

Forwards numbers bound every walk: a step raises the number, and a walk that stays
inside can raise it fewer times than there are entries.
-/
import FieldQuery.Proofs.Document.Index

namespace FieldQuery

namespace Value

mutual

/-- The number of entries of an object and of all objects that keys lead to from it. -/
def entryCount : Value → Nat
  | .object entries => entries.length + entryCountAll entries
  | _ => 0

/-- The number of entries of all objects inside the entries of an object. -/
def entryCountAll : List (String × Value) → Nat
  | [] => 0
  | (_, v) :: rest => v.entryCount + entryCountAll rest

end

end Value

namespace Document

/-- The numbers that a content holds. -/
def Content.numbers : Content → List Nat
  | .leaf _ => []
  | .fields numbers => numbers

namespace Arena

/-- The numbers that the entry with a number holds. -/
def children (arena : Arena) (i : Nat) : List Nat :=
  (arena.entries[i]?.map fun entry => entry.content.numbers).getD []

/-- From the numbers on a stack these are visited, each before those that it holds. -/
inductive Visits (arena : Arena) : List Nat → List Nat → Prop
  | nil : Visits arena [] []
  | cons {i : Nat} {stack visited : List Nat} (hi : i < arena.entries.size)
      (hlater : Visits arena (arena.children i ++ stack) visited) :
      Visits arena (i :: stack) (i :: visited)

/-- The numbers of an arena. -/
structure WellFormed (arena : Arena) : Prop where
  /-- The first entry is the root. -/
  root : ∃ numbers, arena.entries[0]? = some ⟨"", Path.root, .fields numbers⟩
  /-- Numbers lead forwards and stay inside. -/
  forwards : ∀ i, ∀ c ∈ arena.children i, i < c ∧ c < arena.entries.size
  /-- All numbers but the first are held once, and by one entry. -/
  once : ∀ c, 0 < c → c < arena.entries.size →
    ∃ i, (arena.children i).count c = 1 ∧ ∀ j, c ∈ arena.children j → j = i
  /-- The names of children ascend. -/
  ascending : ∀ i, (arena.children i).Pairwise fun c c' =>
    ∀ entry entry', arena.entries[c]? = some entry → arena.entries[c']? = some entry' →
      entry.name < entry'.name
  /-- The path of a child goes one name down. -/
  path_eq : ∀ i entry, arena.entries[i]? = some entry → ∀ c ∈ arena.children i, ∀ entry',
    arena.entries[c]? = some entry' → entry'.path = Path.child entry.path entry'.name
  /-- Depth first from the root the numbers are visited as they are counted. -/
  preorder : Visits arena [0] (List.range arena.entries.size)

mutual

/-- The value that is read from an entry by following its numbers. -/
inductive Reads (arena : Arena) : Nat → Value → Prop
  | leaf {i : Nat} {name path : String} {v : Value}
      (hi : arena.entries[i]? = some ⟨name, path, .leaf v⟩) : Reads arena i v
  | fields {i : Nat} {name path : String} {numbers : List Nat} {entries : List (String × Value)}
      (hi : arena.entries[i]? = some ⟨name, path, .fields numbers⟩)
      (hall : ReadsAll arena numbers entries) : Reads arena i (.object entries)

/-- The entries that are read from the entries with these numbers. -/
inductive ReadsAll (arena : Arena) : List Nat → List (String × Value) → Prop
  | nil : ReadsAll arena [] []
  | cons {i : Nat} {numbers : List Nat} {entry : Entry} {v : Value}
      {entries : List (String × Value)} (hi : arena.entries[i]? = some entry)
      (hvalue : Reads arena i v) (hrest : ReadsAll arena numbers entries) :
      ReadsAll arena (i :: numbers) ((entry.name, v) :: entries)

end

end Arena

namespace Node

/-! ### Trees of values

The document of a value is one tree for each value below it, with names and paths that
the place decides.  Only two things are needed of these trees: how many nodes they have,
and that a child is one name further down than its parent.
-/

mutual

/-- The nodes of the tree of a value in order are the trees of values in order. -/
theorem exists_ofValue_of_mem {n : Node} (name path : String) : ∀ v : Value, v.Ordered →
    n ∈ (ofValue name path v).preorder → ∃ name' path' w, w.Ordered ∧ n = ofValue name' path' w
  | .object entries, h, hn => by
      rw [preorder_eq_cons, List.mem_cons] at hn
      rcases hn with rfl | hbelow
      · exact ⟨name, path, _, h, rfl⟩
      · exact exists_ofValue_of_memAll path entries h.2 hbelow
  | .null, h, hn | .bool _, h, hn | .integer _, h, hn | .float _, h, hn | .string _, h, hn
  | .array _, h, hn => ⟨name, path, _, h, List.mem_singleton.mp hn⟩

theorem exists_ofValue_of_memAll {n : Node} (parent : String) :
    ∀ entries : List (String × Value), Value.OrderedEntries entries →
      n ∈ preorderAll (ofEntries parent entries) →
        ∃ name path w, w.Ordered ∧ n = ofValue name path w
  | [], _, hn => absurd hn List.not_mem_nil
  | (key, v) :: rest, h, hn => by
      rw [ofEntries, preorderAll, List.mem_append] at hn
      rcases hn with hhead | hrest
      · exact exists_ofValue_of_mem key _ v h.1 hhead
      · exact exists_ofValue_of_memAll parent rest h.2 hrest

end

/-- In the tree of a value the path of a child goes one name down. -/
theorem path_of_mem_children (name path : String) {v : Value} {n : Node}
    (h : n ∈ (ofValue name path v).children) : n.path = Path.child path n.name := by
  cases v with
  | object entries =>
      obtain ⟨i, hi⟩ := List.mem_iff_getElem?.mp h
      rw [ofValue, children, getElem?_ofEntries] at hi
      obtain ⟨entry, -, rfl⟩ := Option.map_eq_some_iff.mp hi
      rw [path_ofValue, name_ofValue]
  | null | bool _ | integer _ | float _ | string _ | array _ => exact absurd h List.not_mem_nil

mutual

/-- Besides its own node a value has one node for every entry. -/
theorem length_preorder_ofValue (name path : String) : ∀ v : Value,
    (ofValue name path v).preorder.length = 1 + v.entryCount
  | .object entries => by
      rw [ofValue, preorder, List.length_cons, length_preorderAll_ofEntries path entries,
        Value.entryCount, Nat.add_comm]
  | .null | .bool _ | .integer _ | .float _ | .string _ | .array _ => rfl

theorem length_preorderAll_ofEntries (parent : String) : ∀ entries : List (String × Value),
    (preorderAll (ofEntries parent entries)).length = entries.length + Value.entryCountAll entries
  | [] => rfl
  | (key, v) :: rest => by
      rw [ofEntries, preorderAll, List.length_append, length_preorder_ofValue key _ v,
        length_preorderAll_ofEntries parent rest, List.length_cons, Value.entryCountAll]
      omega

end

/-! ### Numbers in a segment

Counted from a number on, a tree takes up as many numbers as it has nodes.  `held`
collects the numbers that its entries hold, and they are those of all nodes but the
first: the root of the segment is held from outside.
-/

mutual

/-- The nodes below a node stand right behind it. -/
theorem prefix_drop_preorder {n : Node} : ∀ (node : Node) (i : Nat), node.preorder[i]? = some n →
    n.preorder <+: node.preorder.drop i
  | .leaf name path v, i, h => by
      obtain ⟨rfl, rfl⟩ : i = 0 ∧ n = leaf name path v := by
        simpa [preorder, List.getElem?_singleton, eq_comm] using h
      exact List.prefix_rfl
  | .branch name path children, i, h => by
      rw [preorder] at h ⊢
      cases i with
      | zero =>
          obtain rfl := Option.some.inj h
          exact List.prefix_rfl
      | succ i => exact prefix_drop_preorderAll children i h

theorem prefix_drop_preorderAll {n : Node} : ∀ (nodes : List Node) (i : Nat),
    (preorderAll nodes)[i]? = some n → n.preorder <+: (preorderAll nodes).drop i
  | [], i, h => by simp [preorderAll] at h
  | node :: rest, i, h => by
      rw [preorderAll] at h ⊢
      rw [List.drop_append]
      by_cases hi : i < node.preorder.length
      · rw [List.getElem?_append_left hi] at h
        exact (prefix_drop_preorder node i h).trans (List.prefix_append _ _)
      · rw [List.getElem?_append_right (Nat.le_of_not_lt hi)] at h
        rw [List.drop_eq_nil_of_le (Nat.le_of_not_lt hi), List.nil_append]
        exact prefix_drop_preorderAll rest _ h

end

theorem le_of_mem_numbers {first c : Nat} {nodes : List Node} (h : c ∈ numbers first nodes) :
    first ≤ c := by
  induction nodes generalizing first with
  | nil => exact absurd h List.not_mem_nil
  | cons node rest ih =>
      rcases List.mem_cons.mp h with rfl | hrest
      · exact Nat.le_refl _
      · exact Nat.le_trans (Nat.le_add_right _ _) (ih hrest)

theorem numbers_content (first : Nat) (node : Node) :
    (node.content first).numbers = numbers first node.children := by
  cases node <;> rfl

end Node

namespace Arena

open Node

variable {arena : Arena}

/-- The numbers that are held inside a segment. -/
def held (first : Nat) (nodes : List Node) : List Nat :=
  (stored first nodes).flatMap fun entry => entry.content.numbers

theorem held_append (first : Nat) (nodes more : List Node) :
    held first (nodes ++ more) = held first nodes ++ held (first + nodes.length) more := by
  rw [held, stored_append, List.flatMap_append]
  rfl

theorem held_cons (first : Nat) (node : Node) (rest : List Node) :
    held first (node :: rest) = numbers (first + 1) node.children ++ held (first + 1) rest := by
  rw [held, stored, List.flatMap_cons, numbers_content]
  rfl

mutual

/-- Inside the segment of a node all numbers but its own are held, each of them once. -/
theorem held_perm (first : Nat) : ∀ node : Node,
    (held first node.preorder).Perm (List.range' (first + 1) (preorderAll node.children).length)
  | .leaf name path v => List.Perm.nil
  | .branch name path children => by
      rw [preorder, held_cons]
      exact held_permAll (first + 1) children

/-- With the numbers of the nodes themselves these are all numbers of their segments. -/
theorem held_permAll (first : Nat) : ∀ nodes : List Node,
    (numbers first nodes ++ held first (preorderAll nodes)).Perm
      (List.range' first (preorderAll nodes).length)
  | [] => List.Perm.nil
  | node :: rest => by
      have hnode := held_perm first node
      have hrest := held_permAll (first + node.preorder.length) rest
      have hfirst : first :: List.range' (first + 1) (preorderAll node.children).length =
          List.range' first node.preorder.length := by
        rw [preorder_eq_cons, List.length_cons, List.range'_succ]
      rw [numbers, preorderAll, held_append, List.length_append, ← List.range'_append_1, ← hfirst]
      refine .cons first ?_
      -- the numbers of the rest move behind those that are held below the first node
      refine List.perm_append_comm_assoc _ _ _ |>.trans ?_
      exact hnode.append hrest

end

/-! ### Segments of an arena

`Holds` is the statement that is carried from a node to the nodes below it.  It speaks
of the entries from one number on and of no others, so it survives every push behind
them.
-/

/-- The nodes stand in the arena, one after the other, from this number on. -/
def Holds (arena : Arena) (first : Nat) (nodes : List Node) : Prop :=
  stored first nodes <+: arena.entries.toList.drop first

theorem Holds.append {first : Nat} {nodes more : List Node}
    (h : arena.Holds first (nodes ++ more)) :
    arena.Holds first nodes ∧ arena.Holds (first + nodes.length) more := by
  obtain ⟨rest, hrest⟩ := h
  rw [stored_append, List.append_assoc] at hrest
  refine ⟨⟨_, hrest⟩, rest, ?_⟩
  rw [← List.drop_drop, ← hrest, ← length_stored first nodes, List.drop_left]

theorem Holds.tail {first : Nat} {node : Node} {rest : List Node}
    (h : arena.Holds first (node :: rest)) : arena.Holds (first + 1) rest := by
  rw [← List.singleton_append] at h
  exact h.append.2

theorem Holds.of_prefix {first : Nat} {nodes more : List Node} (h : arena.Holds first more)
    (hfront : nodes <+: more) : arena.Holds first nodes := by
  obtain ⟨rest, rfl⟩ := hfront
  exact h.append.1

theorem Holds.entry {first : Nat} {node : Node} {rest : List Node}
    (h : arena.Holds first (node :: rest)) :
    arena.entries[first]? = some ⟨node.name, node.path, node.content (first + 1)⟩ := by
  obtain ⟨more, hmore⟩ := h
  rw [stored, List.cons_append] at hmore
  rw [← Array.getElem?_toList, ← Nat.add_zero first, ← List.getElem?_drop, ← hmore]
  rfl

/-- The entry of a node with all nodes below it. -/
theorem Holds.entry_preorder {first : Nat} {node : Node} (h : arena.Holds first node.preorder) :
    arena.entries[first]? = some ⟨node.name, node.path, node.content (first + 1)⟩ := by
  rw [preorder_eq_cons] at h
  exact h.entry

theorem Holds.lt_size {first : Nat} {node : Node} (h : arena.Holds first node.preorder) :
    first < arena.entries.size :=
  (Array.getElem?_eq_some_iff.mp h.entry_preorder).1

theorem Holds.children_eq {first : Nat} {node : Node} (h : arena.Holds first node.preorder) :
    arena.children first = numbers (first + 1) node.children := by
  rw [Arena.children, h.entry_preorder, Option.map_some, Option.getD_some, numbers_content]

/-- A node of a tree stands in the arena with all nodes below it. -/
theorem Holds.of_getElem? {first i : Nat} {node n : Node} (h : arena.Holds first node.preorder)
    (hn : node.preorder[i]? = some n) : arena.Holds (first + i) n.preorder := by
  have hi := (List.getElem?_eq_some_iff.mp hn).1
  rw [← List.take_append_drop i node.preorder] at h
  have hdrop := h.append.2
  rw [List.length_take_of_le (Nat.le_of_lt hi)] at hdrop
  exact hdrop.of_prefix (prefix_drop_preorder node i hn)

/-- At each of the numbers a node stands in the arena with all nodes below it. -/
def HoldsEach (arena : Arena) : List Nat → List Node → Prop :=
  List.Forall₂ fun c node => arena.Holds c node.preorder

/-- Nodes that follow each other stand in the arena at their numbers. -/
theorem Holds.each {first : Nat} {nodes : List Node} (h : arena.Holds first (preorderAll nodes)) :
    arena.HoldsEach (numbers first nodes) nodes := by
  induction nodes generalizing first with
  | nil => exact .nil
  | cons node rest ih => exact .cons h.append.1 (ih h.append.2)

/-- At the numbers that a node holds stand its children. -/
theorem Holds.children {first : Nat} {node : Node} (h : arena.Holds first node.preorder) :
    arena.HoldsEach (arena.children first) node.children := by
  rw [h.children_eq]
  rw [preorder_eq_cons] at h
  exact h.tail.each

theorem HoldsEach.exists_mem {numbers : List Nat} {nodes : List Node}
    (h : arena.HoldsEach numbers nodes) {c : Nat} (hc : c ∈ numbers) :
    ∃ node ∈ nodes, arena.Holds c node.preorder := by
  induction h with
  | nil => exact absurd hc List.not_mem_nil
  | cons hhead _ ih =>
      rw [List.exists_mem_cons_iff]
      rcases List.mem_cons.mp hc with rfl | hrest
      · exact .inl hhead
      · exact .inr (ih hrest)

/-- Where the names of nodes ascend so do those of the entries at their numbers. -/
theorem HoldsEach.ascending {numbers : List Nat} {nodes : List Node}
    (h : arena.HoldsEach numbers nodes) (hnames : (nodes.map Node.name).Pairwise (· < ·)) :
    numbers.Pairwise fun c c' => ∀ entry entry', arena.entries[c]? = some entry →
      arena.entries[c']? = some entry' → entry.name < entry'.name := by
  induction h with
  | nil => exact .nil
  | cons hhead hrest ih =>
      rw [List.map_cons, List.pairwise_cons] at hnames
      refine .cons (fun c' hc' entry entry' hentry hentry' => ?_) (ih hnames.2)
      obtain ⟨node, hnode, hholds⟩ := HoldsEach.exists_mem hrest hc'
      obtain rfl := Option.some.inj (hhead.entry_preorder.symm.trans hentry)
      obtain rfl := Option.some.inj (hholds.entry_preorder.symm.trans hentry')
      exact hnames.1 _ (List.mem_map_of_mem hnode)

/-! ### Visiting

A walk keeps the numbers that are still to be visited on a stack.  By the time a number
is taken off, the numbers it holds go on in front, and these are the next ones: the
visited numbers are a range.
-/

mutual

/-- A node is visited with all nodes below it before what is left on the stack. -/
theorem Holds.visits {stack visited : List Nat} (hstack : Visits arena stack visited) :
    ∀ {node : Node} {first : Nat}, arena.Holds first node.preorder →
      Visits arena (first :: stack) (List.range' first node.preorder.length ++ visited)
  | .leaf name path v, first, h => by
      refine .cons h.lt_size ?_
      rw [h.children_eq]
      exact hstack
  | .branch name path children, first, h => by
      have hchildren : arena.Holds (first + 1) (preorderAll children) := Holds.tail h
      have hbelow := Holds.visitsAll hstack hchildren
      rw [preorder, List.length_cons, List.range'_succ]
      refine .cons h.lt_size ?_
      rw [h.children_eq]
      exact hbelow

theorem Holds.visitsAll {stack visited : List Nat} (hstack : Visits arena stack visited) :
    ∀ {nodes : List Node} {first : Nat}, arena.Holds first (preorderAll nodes) →
      Visits arena (numbers first nodes ++ stack)
        (List.range' first (preorderAll nodes).length ++ visited)
  | [], first, _ => hstack
  | node :: rest, first, h => by
      have hlater : arena.Holds (first + node.preorder.length) (preorderAll rest) := h.append.2
      have hrest := Holds.visitsAll hstack hlater
      rw [preorderAll, List.length_append, ← List.range'_append_1, List.append_assoc]
      exact Holds.visits hrest h.append.1

end

/-! ### Reading values

A value is read by following numbers, and two readings of one number agree because the
node that stands there has one value.  The proof follows the tree, not the reading.
-/

mutual

/-- From the number of a node its value is read, and nothing else. -/
theorem Holds.reads_iff : ∀ {node : Node} {first : Nat} {v : Value},
    arena.Holds first node.preorder → (arena.Reads first v ↔ v = node.value)
  | .leaf name path w, first, v, h => by
      have hentry := h.entry_preorder
      constructor
      · intro hv
        cases hv with
        | leaf hi =>
            obtain ⟨-, -, rfl⟩ := by simpa [hentry, content] using hi
            rfl
        | fields hi hall => simp [hentry, content] at hi
      · rintro rfl
        exact .leaf hentry
  | .branch name path children, first, v, h => by
      have hentry := h.entry_preorder
      have hbelow : ∀ {entries : List (String × Value)},
          arena.ReadsAll (numbers (first + 1) children) entries ↔ entries = Node.entries children :=
        Holds.readsAll_iff (Holds.tail h)
      constructor
      · intro hv
        cases hv with
        | leaf hi => simp [hentry, content] at hi
        | fields hi hall =>
            obtain ⟨-, -, rfl⟩ := by simpa [hentry, content] using hi
            rw [value, hbelow.mp hall]
      · rintro rfl
        exact .fields hentry (hbelow.mpr rfl)

theorem Holds.readsAll_iff : ∀ {nodes : List Node} {first : Nat}
    {entries : List (String × Value)}, arena.Holds first (preorderAll nodes) →
      (arena.ReadsAll (numbers first nodes) entries ↔ entries = Node.entries nodes)
  | [], first, entries, h => by
      constructor
      · intro hentries
        cases hentries
        rfl
      · rintro rfl
        exact .nil
  | node :: rest, first, entries, h => by
      have hnode : arena.Holds first node.preorder := h.append.1
      have hentry := hnode.entry_preorder
      constructor
      · intro hentries
        cases hentries with
        | cons hi hvalue hrest =>
            obtain rfl := Option.some.inj (hentry.symm.trans hi)
            rw [(Holds.reads_iff hnode).mp hvalue, (Holds.readsAll_iff h.append.2).mp hrest]
            rfl
      · rintro rfl
        exact .cons hentry ((Holds.reads_iff hnode).mpr rfl)
          ((Holds.readsAll_iff h.append.2).mpr rfl)

end

/-! ### Whole arenas -/

theorem lt_size_of_mem_children {i c : Nat} (hc : c ∈ arena.children i) :
    i < arena.entries.size := by
  by_contra hi
  rw [children, Array.getElem?_eq_none (Nat.le_of_not_lt hi)] at hc
  exact absurd hc List.not_mem_nil

theorem flatMap_children (arena : Arena) :
    (List.range arena.entries.size).flatMap arena.children =
      arena.entries.toList.flatMap fun entry => entry.content.numbers := by
  rw [List.flatMap_def, List.flatMap_def]
  congr 1
  refine List.ext_getElem (by simp) fun i hi hi' => ?_
  have hlt : i < arena.entries.size := by simpa using hi
  simp [children, Array.getElem?_eq_getElem hlt]

section

-- the arena holds one tree and nothing else
variable {root : Node} (hentries : arena.entries.toList = stored 0 root.preorder)

include hentries

theorem size_eq : arena.entries.size = root.preorder.length := by
  rw [← Array.length_toList, hentries, length_stored]

theorem holds_root : arena.Holds 0 root.preorder := by
  rw [Holds, hentries]
  exact List.prefix_rfl

/-- Every number inside the arena is that of a node. -/
theorem exists_holds {i : Nat} (hi : i < arena.entries.size) :
    ∃ node, root.preorder[i]? = some node ∧ arena.Holds i node.preorder := by
  rw [size_eq hentries] at hi
  have hnode : root.preorder[i]? = some root.preorder[i] := List.getElem?_eq_getElem hi
  have hholds := (holds_root hentries).of_getElem? hnode
  rw [Nat.zero_add] at hholds
  exact ⟨_, hnode, hholds⟩

theorem children_perm : ((List.range arena.entries.size).flatMap arena.children).Perm
    (List.range' 1 (arena.entries.size - 1)) := by
  have hsize : arena.entries.size - 1 = (preorderAll root.children).length := by
    rw [size_eq hentries, preorder_eq_cons, List.length_cons, Nat.add_sub_cancel]
  rw [flatMap_children, hentries, hsize]
  exact held_perm 0 root

theorem exists_unique_parent {c : Nat} (hpos : 0 < c) (hc : c < arena.entries.size) :
    ∃ i, (arena.children i).count c = 1 ∧ ∀ j, c ∈ arena.children j → j = i := by
  have hperm := children_perm hentries
  obtain ⟨hnodup, hdisjoint⟩ := List.nodup_flatMap.mp (hperm.nodup_iff.mpr List.nodup_range')
  have hheld : c ∈ (List.range arena.entries.size).flatMap arena.children := by
    rw [hperm.mem_iff, List.mem_range'_1]
    omega
  obtain ⟨i, hi, hmem⟩ := List.mem_flatMap.mp hheld
  refine ⟨i, List.count_eq_one_of_mem (hnodup i hi) hmem, fun j hj => ?_⟩
  by_contra hne
  have hsymm : Std.Symm (Function.onFun List.Disjoint arena.children) := ⟨fun _ _ h => h.symm⟩
  exact hdisjoint.forall (List.mem_range.mpr (lt_size_of_mem_children hj)) hi hne hj hmem

/-- What is read from a number is the value of the tree that it shows. -/
theorem reads_iff {i : Nat} (hi : i < arena.entries.size) {v : Value} :
    arena.Reads i v ↔ v = (arena.tree i).value := by
  obtain ⟨node, hnode, hholds⟩ := exists_holds hentries hi
  rw [tree, hentries, trees_stored_preorder, List.getD_eq_getElem?_getD, hnode, Option.getD_some]
  exact hholds.reads_iff

end

/-- The arena of an object in order is well formed. -/
theorem wellFormed_of_entries {fields : Fields Value} (hordered : (Value.object fields).Ordered)
    (hentries : arena.entries.toList =
      stored 0 (ofValue "" Path.root (.object fields)).preorder) : arena.WellFormed where
  root := ⟨_, (holds_root hentries).entry_preorder⟩
  forwards := by
    intro i c hc
    obtain ⟨node, -, hnode⟩ := exists_holds hentries (lt_size_of_mem_children hc)
    obtain ⟨n, -, hn⟩ := hnode.children.exists_mem hc
    rw [hnode.children_eq] at hc
    exact ⟨le_of_mem_numbers hc, hn.lt_size⟩
  once := fun c hpos hc => exists_unique_parent hentries hpos hc
  ascending := by
    intro i
    by_cases hi : i < arena.entries.size
    · obtain ⟨node, hmem, hnode⟩ := exists_holds hentries hi
      obtain ⟨name, path, w, hw, rfl⟩ :=
        exists_ofValue_of_mem "" Path.root _ hordered (List.mem_of_getElem? hmem)
      exact hnode.children.ascending (ascending_children_of_ordered name path hw)
    · have hnone : arena.children i = [] := List.eq_nil_iff_forall_not_mem.mpr fun c hc =>
        hi (lt_size_of_mem_children hc)
      rw [hnone]
      exact .nil
  path_eq := by
    intro i entry hentry c hc entry' hentry'
    obtain ⟨node, hmem, hnode⟩ := exists_holds hentries (lt_size_of_mem_children hc)
    obtain ⟨name, path, w, -, rfl⟩ :=
      exists_ofValue_of_mem "" Path.root _ hordered (List.mem_of_getElem? hmem)
    obtain ⟨n, hn, hchild⟩ := hnode.children.exists_mem hc
    obtain rfl := Option.some.inj (hnode.entry_preorder.symm.trans hentry)
    obtain rfl := Option.some.inj (hchild.entry_preorder.symm.trans hentry')
    show n.path = Path.child (ofValue name path w).path n.name
    rw [path_of_mem_children name path hn, path_ofValue]
  preorder := by
    have hvisits := (holds_root hentries).visits .nil
    rwa [List.append_nil, ← size_eq hentries, ← List.range_eq_range'] at hvisits

/-- In a well-formed arena a walk from entry to entry ends, and before that it stays inside. -/
theorem WellFormed.walk (h : arena.WellFormed) {i : Nat} {walk : List Nat}
    (hi : i < arena.entries.size)
    (hwalk : (i :: walk).IsChain fun j c => c ∈ arena.children j) :
    i + walk.length < arena.entries.size ∧ ∀ c ∈ walk, c < arena.entries.size := by
  induction walk generalizing i with
  | nil => exact ⟨hi, by simp⟩
  | cons c rest ih =>
      obtain ⟨hc, hrest⟩ := List.isChain_cons_cons.mp hwalk
      obtain ⟨hlt, hsize⟩ := h.forwards i c hc
      obtain ⟨hlength, hinside⟩ := ih hsize hrest
      refine ⟨?_, List.forall_mem_cons.mpr ⟨hsize, hinside⟩⟩
      rw [List.length_cons]
      omega

end Arena

/--
**The numbers of a document are in order.**  Its arena is well formed, and besides the root it
has one entry for every entry of the objects that keys lead to.  So the value of a node is read
by following numbers that stay inside the arena, and nothing else is read; and a walk from entry
to entry stays inside as well and takes fewer steps than there are entries.
-/
theorem arena_wellFormed (entries : List (String × Value)) :
    ∃ d, ofValue? (.object entries) = some d ∧ d.arena.WellFormed ∧
      d.size = 1 + (Value.object entries).canonical.entryCount ∧
      (∀ i v, i < d.size → (d.arena.Reads i v ↔ v = (d.arena.tree i).value)) ∧
      ∀ i walk, i < d.size → (i :: walk).IsChain (fun j c => c ∈ d.arena.children j) →
        walk.length < d.size ∧ ∀ c ∈ walk, c < d.size := by
  obtain ⟨d, hd⟩ : ∃ d, ofValue? (.object entries) = some d := ⟨_, rfl⟩
  obtain ⟨fields, hfields⟩ : ∃ fields, (Value.object entries).canonical = .object fields := ⟨_, rfl⟩
  have hentries : d.arena.entries.toList =
      Arena.stored 0 (Node.ofValue "" Path.root (.object fields)).preorder := by
    obtain rfl := Option.some.inj hd
    rw [← hfields]
    exact Arena.toList_entries_ofFields _
  have hordered : (Value.object fields).Ordered := hfields ▸ Value.ordered_canonical _
  have hwell := Arena.wellFormed_of_entries hordered hentries
  refine ⟨d, hd, hwell, ?_, fun i v hi => Arena.reads_iff hentries hi, fun i walk hi hwalk => ?_⟩
  · rw [hfields, size, Arena.size_eq hentries, Node.length_preorder_ofValue]
  · obtain ⟨hlength, hinside⟩ := hwell.walk hi hwalk
    exact ⟨Nat.lt_of_le_of_lt (Nat.le_add_left _ _) hlength, hinside⟩

end Document

end FieldQuery

/-
Ways down a document.

The key sequences that lead somewhere in a value stand for its nodes, one for one and in
the same order, `map_path_preorder`, and no two of them are the same.  What spoils this
for paths is the text alone: a key that is empty or holds dots can spell another way.
Plain keys are the pieces of their path, so in a document with plain keys paths and key
sequences stand for each other, and the index, which keeps one node for a path, holds
all nodes: `path_iff_keys`.

That no two sequences are the same is where the order of an object comes in.  Its keys
ascend, so two ways that begin in different entries begin with different keys.  Nothing
else about the order is used.
-/
import FieldQuery.Proofs.Document.PlainKeys
import FieldQuery.Proofs.Value.Ordered

namespace FieldQuery

namespace Value

/-! ### Key sequences that lead somewhere

`ways` lists them by recursion over the value, so that the list can be compared with the
preorder of the tree entry by entry.
-/

mutual

/-- The key sequences that lead somewhere in a value, each before those that go on from it. -/
def ways : Value → List (List String)
  | .object entries => [] :: waysEntries entries
  | _ => [[]]

/-- The key sequences that begin with the key of an entry and lead somewhere. -/
def waysEntries : List (String × Value) → List (List String)
  | [] => []
  | (key, v) :: rest => v.ways.map (key :: ·) ++ waysEntries rest

end

theorem mem_waysEntries {entries : List (String × Value)} {keys : List String} :
    keys ∈ waysEntries entries ↔
      ∃ entry ∈ entries, ∃ rest ∈ entry.2.ways, entry.1 :: rest = keys := by
  induction entries with
  | nil => simp [waysEntries]
  | cons entry more ih =>
      rw [waysEntries, List.mem_append, List.mem_map, ih, List.exists_mem_cons_iff]

/-- In a value in order the ways are the key sequences that lead somewhere. -/
theorem mem_ways_iff {v : Value} (h : v.Ordered) {keys : List String} :
    keys ∈ v.ways ↔ ∃ w, v.at? keys = some w := by
  induction keys generalizing v with
  | nil => cases v <;> simp [ways, at?]
  | cons key rest ih =>
      cases v with
      | null | bool _ | integer _ | float _ | string _ | array _ => simp [ways, at?, field?]
      | object entries =>
          obtain ⟨hascending, hall⟩ := ordered_object_iff.mp h
          rw [ways, List.mem_cons, mem_waysEntries, at?_cons, field?_of_ascending hascending]
          constructor
          · rintro (hnil | ⟨⟨k, inner⟩, hentry, more, hmore, hkeys⟩)
            · exact absurd hnil (List.cons_ne_nil _ _)
            · obtain ⟨rfl, rfl⟩ := List.cons.inj hkeys
              rw [Fields.lookup_of_mem hascending hentry]
              exact (ih (hall _ hentry)).mp hmore
          · rintro ⟨w, hw⟩
            obtain ⟨inner, hinner, hrest⟩ := Option.bind_eq_some_iff.mp hw
            have hentry := Fields.mem_of_lookup hinner
            exact .inr ⟨_, hentry, rest, (ih (hall _ hentry)).mpr ⟨w, hrest⟩, rfl⟩

mutual

/-- In a value in order no key sequence stands for two ways. -/
theorem nodup_ways : ∀ v : Value, v.Ordered → v.ways.Nodup
  | .object entries, ⟨hascending, horder⟩ => by
      refine List.nodup_cons.mpr ⟨fun hmem => ?_, nodup_waysEntries entries hascending horder⟩
      obtain ⟨entry, -, rest, -, hkeys⟩ := mem_waysEntries.mp hmem
      exact List.cons_ne_nil _ _ hkeys
  | .null, _ | .bool _, _ | .integer _, _ | .float _, _ | .string _, _ | .array _, _ =>
      List.nodup_singleton _

theorem nodup_waysEntries : ∀ entries : List (String × Value), Fields.Ascending entries →
    OrderedEntries entries → (waysEntries entries).Nodup
  | [], _, _ => List.nodup_nil
  | (key, v) :: rest, hascending, horder => by
      obtain ⟨hkey, hrest⟩ := List.pairwise_cons.mp hascending
      refine List.nodup_append.mpr ⟨?_, nodup_waysEntries rest hrest horder.2, ?_⟩
      · exact (nodup_ways v horder.1).map fun _ _ heq => (List.cons.inj heq).2
      · -- a later way begins with a greater key
        rintro keys hkeys other hother rfl
        obtain ⟨more, -, rfl⟩ := List.mem_map.mp hkeys
        obtain ⟨entry, hentry, _, -, hsame⟩ := mem_waysEntries.mp hother
        have hless : key < entry.1 := hkey entry hentry
        rw [(List.cons.inj hsame).1] at hless
        exact String.lt_irrefl key hless

end

/-- Numbers are determined by the keys that they choose. -/
theorem choose?_inj {numbers others : List Nat} {v : Value} {keys : List String}
    (h : v.choose? numbers = some keys) (h' : v.choose? others = some keys) :
    numbers = others := by
  induction numbers generalizing v others keys with
  | nil =>
      obtain rfl := Option.some.inj h
      cases others with
      | nil => rfl
      | cons j more =>
          obtain ⟨_, -, _, -, _, -, hkeys⟩ := choose?_cons_iff.mp h'
          exact absurd hkeys (List.cons_ne_nil _ _)
  | cons i rest ih =>
      obtain ⟨key, hkey, inner, hfield, later, hlater, rfl⟩ := choose?_cons_iff.mp h
      cases others with
      | nil => simp [choose?] at h'
      | cons j more =>
          obtain ⟨key', hkey', inner', hfield', later', hlater', hkeys⟩ := choose?_cons_iff.mp h'
          obtain ⟨rfl, rfl⟩ := List.cons.inj hkeys
          obtain rfl := Option.some.inj (hfield.symm.trans hfield')
          have hnodup : v.keys.Nodup := v.ascending_keys.imp ne_of_lt
          have hlt : i < v.keys.length := (List.getElem?_eq_some_iff.mp hkey).1
          obtain rfl := (List.getElem?_inj hlt hnodup).mp (hkey.trans hkey'.symm)
          rw [ih hlater hlater']

end Value

namespace Path

/-- Plain names are determined by their path. -/
theorem foldl_child_inj {names others : List String} (h : ∀ name ∈ names, Plain name)
    (h' : ∀ name ∈ others, Plain name) (heq : names.foldl child root = others.foldl child root) :
    names = others := by
  have hnotRoot : ∀ {l : List String}, l ≠ [] → (∀ name ∈ l, Plain name) →
      l.foldl child root ≠ root := by
    intro l hne hplain hroot
    have hsegments := segments_foldl_child hne hplain
    rw [hroot] at hsegments
    exact (hplain "" (hsegments ▸ List.mem_singleton_self _)).1 rfl
  by_cases hnames : names = []
  · by_cases hothers : others = []
    · rw [hnames, hothers]
    · rw [hnames] at heq
      exact absurd heq.symm (hnotRoot hothers h')
  · by_cases hothers : others = []
    · rw [hothers] at heq
      exact absurd heq (hnotRoot hnames h)
    · rw [← segments_foldl_child hnames h, heq, segments_foldl_child hothers h']

end Path

namespace Document

open Value

namespace Node

mutual

/-- The nodes below a path have the paths of the ways, one after the other. -/
theorem map_path_preorder (name path : String) : ∀ v : Value,
    (ofValue name path v).preorder.map Node.path =
      v.ways.map fun keys => keys.foldl Path.child path
  | .object entries => by
      rw [ofValue, preorder, List.map_cons, map_path_preorderAll path entries]
      rfl
  | .null | .bool _ | .integer _ | .float _ | .string _ | .array _ => rfl

theorem map_path_preorderAll (parent : String) : ∀ entries : List (String × Value),
    (preorderAll (ofEntries parent entries)).map Node.path =
      (waysEntries entries).map fun keys => keys.foldl Path.child parent
  | [] => rfl
  | (key, v) :: rest => by
      rw [ofEntries, preorderAll, List.map_append, map_path_preorder key _ v,
        map_path_preorderAll parent rest, waysEntries, List.map_append, List.map_map]
      rfl

end

end Node

/-! ### Nodes as they stand in the arena

The arena has one entry for every node, and the index has one key for every path.  They
have the same number exactly if no path is shared.
-/

theorem map_path_stored (first : Nat) (nodes : List Node) :
    (Arena.stored first nodes).map Entry.path = nodes.map Node.path := by
  induction nodes generalizing first with
  | nil => rfl
  | cons node rest ih => rw [Arena.stored, List.map_cons, ih, List.map_cons]

theorem map_path_entries (d : Document) :
    d.arena.entries.toList.map Entry.path = d.root.preorder.map Node.path := by
  obtain ⟨_, fields, rfl⟩ := d
  show (Arena.ofFields fields).entries.toList.map Entry.path =
    ((Arena.ofFields fields).tree 0).preorder.map Node.path
  rw [Arena.tree_ofFields_zero, Arena.toList_entries_ofFields, map_path_stored]

theorem mem_paths_iff_preorder (d : Document) (path : String) :
    path ∈ d.paths ↔ path ∈ d.root.preorder.map Node.path := by
  rw [mem_paths_iff, contains, find?_eq, List.find?_isSome, List.mem_map]
  simp only [beq_iff_eq, @eq_comm _ path]

/-- Nodes with different paths are listed one by one. -/
theorem size_eq_length_paths {d : Document} (h : (d.root.preorder.map Node.path).Nodup) :
    d.size = d.paths.length := by
  have hpaths : d.paths.Nodup := d.ascending_paths.imp ne_of_lt
  have hperm : d.paths.Perm (d.root.preorder.map Node.path) :=
    (List.perm_ext_iff_of_nodup hpaths h).mpr d.mem_paths_iff_preorder
  rw [hperm.length_eq, ← map_path_entries, List.length_map, Array.length_toList, size]

/-- Every path of a document begins with a dot, and so it has a first piece. -/
theorem segments_ne_nil {d : Document} {path : String} (h : d.contains path = true) :
    Path.segments path ≠ [] := by
  rw [← mem_paths_iff, mem_paths_iff_preorder] at h
  obtain ⟨_, fields, rfl⟩ := d
  change path ∈ ((Arena.ofFields fields).tree 0).preorder.map Node.path at h
  rw [Arena.tree_ofFields_zero, Node.map_path_preorder, List.mem_map] at h
  obtain ⟨keys, -, rfl⟩ := h
  exact Path.segments_ne_nil (Path.head_foldl_child keys rfl)

/-! ### Documents with plain keys

What follows reads a path as the keys that it is cut into, in one statement after the
other.
-/

section

variable {entries : List (String × Value)} {d : Document}

/-- The paths of a document are those of its ways. -/
theorem map_path_root (hd : ofValue? (.object entries) = some d) :
    d.root.preorder.map Node.path =
      (Value.object entries).canonical.ways.map fun keys => keys.foldl Path.child Path.root := by
  rw [root_eq hd, Node.map_path_preorder]

theorem mem_ways_canonical_iff {keys : List String} :
    keys ∈ (Value.object entries).canonical.ways ↔
      ∃ w, (Value.object entries).at? keys = some w := by
  rw [mem_ways_iff (ordered_canonical _), at?_canonical]
  simp

theorem nodup_paths (hd : ofValue? (.object entries) = some d)
    (hplain : (Value.object entries).PlainKeys) : (d.root.preorder.map Node.path).Nodup := by
  rw [map_path_root hd]
  refine (nodup_ways _ (ordered_canonical _)).map_on fun keys hkeys others hothers heq => ?_
  obtain ⟨w, hw⟩ := mem_ways_canonical_iff.mp hkeys
  obtain ⟨u, hu⟩ := mem_ways_canonical_iff.mp hothers
  exact Path.foldl_child_inj (hplain.of_at? hw) (hplain.of_at? hu) heq

/-- A path is found exactly if it is that of keys that lead somewhere. -/
theorem contains_iff_at? (hd : ofValue? (.object entries) = some d) (path : String) :
    d.contains path = true ↔
      ∃ keys w, (Value.object entries).at? keys = some w ∧
        keys.foldl Path.child Path.root = path := by
  rw [← mem_paths_iff, mem_paths_iff_preorder, map_path_root hd, List.mem_map]
  simp only [mem_ways_canonical_iff, exists_and_right]

/-- Where all keys are plain no two walks reach one path. -/
theorem numbers_eq_of_path_eq (hd : ofValue? (.object entries) = some d)
    (hplain : (Value.object entries).PlainKeys) {numbers others : List Nat} {node n : Node}
    (hnode : d.root.descend? numbers = some node) (hn : d.root.descend? others = some n)
    (hpath : node.path = n.path) : numbers = others := by
  obtain ⟨keys, w, hkeys, hw, rfl⟩ := exists_of_descend? hd hnode
  obtain ⟨keys', u, hkeys', hu, rfl⟩ := exists_of_descend? hd hn
  rw [Node.path_ofValue, Node.path_ofValue] at hpath
  obtain rfl := Path.foldl_child_inj (hplain.of_at? hw) (hplain.of_at? hu) hpath
  exact choose?_inj hkeys hkeys'

/-- The pieces of the path of a node below the root are the keys on the way to it. -/
theorem choose?_of_descend? (hd : ofValue? (.object entries) = some d)
    (hplain : (Value.object entries).PlainKeys) {numbers : List Nat} {node : Node}
    (hne : numbers ≠ []) (hnode : d.root.descend? numbers = some node) :
    (Value.object entries).choose? numbers = some node.segments := by
  obtain ⟨keys, w, hkeys, hw, rfl⟩ := exists_of_descend? hd hnode
  have hkeysNe : keys ≠ [] := by
    rintro rfl
    exact hne (choose?_inj hkeys rfl)
  rw [Node.segments, Node.path_ofValue, Path.segments_foldl_child hkeysNe (hplain.of_at? hw),
    hkeys]

/-- Plain keys are found at what they lead to. -/
theorem get?_foldl_child (hd : ofValue? (.object entries) = some d)
    (hplain : (Value.object entries).PlainKeys) {keys : List String} (hne : keys ≠ [])
    {w : Value} (hw : (Value.object entries).at? keys = some w) :
    d.get? (keys.foldl Path.child Path.root) = some w.canonical := by
  have hkeys := hplain.of_at? hw
  obtain ⟨node, hnode⟩ := Option.isSome_iff_exists.mp
    ((contains_iff_at? hd _).mpr ⟨keys, w, hw, rfl⟩)
  have hroot : keys.foldl Path.child Path.root ≠ Path.root :=
    fun heq => hne (Path.foldl_child_inj hkeys (by simp) heq)
  obtain ⟨-, -, -, u, hu, hvalue⟩ := at?_segments hd hplain hroot hnode
  rw [Path.segments_foldl_child hne hkeys, hw] at hu
  obtain rfl := Option.some.inj hu
  rw [get?, hnode, Option.map_some, hvalue]

/-- The text of plain keys, each of them after a dot, is their path. -/
theorem ofList_spelled {keys : List String} (hne : keys ≠ [])
    (hplain : ∀ key ∈ keys, Path.Plain key) :
    String.ofList (Path.spelled keys) = keys.foldl Path.child Path.root := by
  rw [← String.toList_inj, String.toList_ofList, Path.toList_foldl_child_root hne hplain]

/-- What is found are the root's path and the texts of keys that lead somewhere. -/
theorem contains_iff_spelled (hd : ofValue? (.object entries) = some d)
    (hplain : (Value.object entries).PlainKeys) (path : String) :
    d.contains path = true ↔ path = Path.root ∨
      ∃ keys w, keys ≠ [] ∧ (Value.object entries).at? keys = some w ∧
        path = String.ofList (Path.spelled keys) := by
  rw [contains_iff_at? hd]
  constructor
  · rintro ⟨keys, w, hw, rfl⟩
    by_cases hne : keys = []
    · exact .inl (by rw [hne]; rfl)
    · exact .inr ⟨keys, w, hne, hw, (ofList_spelled hne (hplain.of_at? hw)).symm⟩
  · rintro (rfl | ⟨keys, w, hne, hw, rfl⟩)
    · exact ⟨[], _, rfl, rfl⟩
    · exact ⟨keys, w, hw, (ofList_spelled hne (hplain.of_at? hw)).symm⟩

end

/--
**In a document with plain keys paths and key sequences stand for each other.**  No two nodes
have one path, whether they are told apart by their numbers or by the walks that reach them, and
as many paths are listed as there are nodes.  The pieces of the path of a node below the root are
the keys on the way to it.  What is found are the root's path and the keys that lead somewhere,
each of them after a dot, and there the document has what they lead to.
-/
theorem path_iff_keys {entries : List (String × Value)}
    (hplain : (Value.object entries).PlainKeys) :
    ∃ d, ofValue? (.object entries) = some d ∧
      (d.arena.entries.toList.map Entry.path).Nodup ∧ d.size = d.paths.length ∧
      (∀ numbers others node n, d.root.descend? numbers = some node →
        d.root.descend? others = some n → node.path = n.path → numbers = others) ∧
      (∀ numbers node, numbers ≠ [] → d.root.descend? numbers = some node →
        (Value.object entries).choose? numbers = some node.segments) ∧
      (∀ path, d.contains path = true ↔ path = Path.root ∨
        ∃ keys w, keys ≠ [] ∧ (Value.object entries).at? keys = some w ∧
          path = String.ofList (Path.spelled keys)) ∧
      d.get? Path.root = some (Value.object entries).canonical ∧
      ∀ keys w, keys ≠ [] → (Value.object entries).at? keys = some w →
        d.get? (String.ofList (Path.spelled keys)) = some w.canonical := by
  obtain ⟨d, hd⟩ : ∃ d, ofValue? (.object entries) = some d := ⟨_, rfl⟩
  have hnodup := nodup_paths hd hplain
  refine ⟨d, hd, ?_, size_eq_length_paths hnodup, fun numbers others node n hnode hn hpath => ?_,
    fun numbers node hne hnode => choose?_of_descend? hd hplain hne hnode,
    contains_iff_spelled hd hplain, get?_root hd, fun keys w hne hw => ?_⟩
  · rwa [map_path_entries]
  · exact numbers_eq_of_path_eq hd hplain hnode hn hpath
  · rw [ofList_spelled hne (hplain.of_at? hw)]
    exact get?_foldl_child hd hplain hne hw

theorem path_iff_keys_nested :
    (Value.object [("b", .object [("a", .null), ("c", .bool true)])]).PlainKeys ∧
      ∃ d, ofValue? (.object [("b", .object [("a", .null), ("c", .bool true)])]) = some d ∧
        d.size = d.paths.length ∧ d.get? ".b.c" = some (.bool true) := by
  have hplain :
      (Value.object [("b", .object [("a", .null), ("c", .bool true)])]).PlainKeys := by
    simp [Value.PlainKeys, Value.PlainEntries, Path.Plain]
  obtain ⟨d, hd, -, hsize, -, -, -, -, hget⟩ := path_iff_keys hplain
  exact ⟨hplain, d, hd, hsize, hget ["b", "c"] (.bool true) (by decide) (by rfl)⟩

end Document

end FieldQuery

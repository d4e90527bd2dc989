/-
Following keys and looking up their path.

A path is a text, and several ways down a document can spell the same one; the index
keeps the way that comes first.  For keys that are not empty and made of word characters
that is the way key by key, because any other spelling goes through a key that begins
with one of them and so comes later.  `not_lt_of_extends_child` is that argument: a name
under which the path goes on begins with the key, and no text is less than the texts
that it begins.

There is one exception.  The object under the empty key of the root has the path of the
root, and its children get paths as if they were the root's.  The empty key is the least
of all, so whatever that object has at a path comes before the rest of the document, and
`shadow?` names it. `get?_follow` says both: what the keys lead to is found, unless
something of the shadow stands there.

Below the root the exception cannot happen again.  A path that is longer than the root's
goes on with a dot, and every name adds at least its dot.
-/
import FieldQuery.Proofs.KeyPath

namespace FieldQuery

namespace Value

/-! ### Keys that lead somewhere

Following keys looks at the object as it is written, where the last of several entries
with one key counts.  The document is made of the canonical form, where there is only
one.
-/

/-- The value at a key of an object; of several entries with the key the last counts. -/
def field? : Value → String → Option Value
  | .object entries, key => entries.reverse.lookup key
  | _, _ => none

/-- The value that keys lead to, one after the other. -/
def follow? (v : Value) : List Key → Option Value
  | [] => some v
  | key :: rest => (v.field? key.text).bind fun inner => inner.follow? rest

/-- The ordered entries of an object have the canonical forms of its values. -/
theorem lookup_canonicalEntries (entries : List (String × Value)) (key : String) :
    (Fields.ofList (canonicalEntries entries)).lookup key =
      ((Value.object entries).field? key).map canonical := by
  rw [Fields.lookup_ofList, canonicalEntries_eq_map, ← List.map_reverse, Fields.lookup_map, field?]

end Value

/-! ### Paths that go on from a path

`Extends` is the prefix order on paths, dots in mind: `.ab` does not go on from `.a`.
The length conditions set the root apart, which is a path that nothing extends.
-/

namespace Path

/-- The path is this one or goes on from it with a dot. -/
def Extends (path p : String) : Prop :=
  ∃ rest, p = path ++ rest ∧ ∀ c ∈ rest.toList.head?, c = '.'

theorem extends_self (path : String) : Extends path path :=
  ⟨"", String.append_empty.symm, by simp⟩

theorem Extends.trans {a b c : String} (h : Extends a b) (hnext : Extends b c) :
    Extends a c := by
  obtain ⟨rest, rfl, hrest⟩ := h
  obtain ⟨more, rfl, hmore⟩ := hnext
  refine ⟨rest ++ more, String.append_assoc, ?_⟩
  rw [String.toList_append]
  exact Text.forall_head_append hrest hmore

theorem ne_root_of_below {path : String} (h : 1 < path.length) : path ≠ root := by
  rintro rfl
  exact absurd h (by decide)

/-- Below the root a child adds its name behind a dot. -/
theorem child_of_below {parent : String} (h : 1 < parent.length) (name : String) :
    child parent name = parent ++ ("." ++ name) := by
  rw [child, if_neg (ne_root_of_below h), String.append_assoc]

theorem extends_child {parent : String} (h : 1 < parent.length) (name : String) :
    Extends parent (child parent name) :=
  ⟨"." ++ name, child_of_below h name, by simp⟩

theorem length_child {parent name : String} (h : 1 < parent.length ∨ parent = root ∧ name ≠ "") :
    1 < (child parent name).length := by
  rcases h with h | ⟨rfl, hname⟩
  · rw [child_of_below h, String.length_append]
    omega
  · have hlength : name.length ≠ 0 := fun hzero => hname (String.length_eq_zero_iff.mp hzero)
    rw [child, if_pos rfl, String.length_append]
    show 1 < 1 + name.length
    omega

/-- A name under which this path goes on begins with the key, so it is not less. -/
theorem not_lt_of_extends_child {parent name tail : String} {key : Key}
    (h : Extends (child parent name) (child parent key.text ++ tail)) : ¬name < key.text := by
  obtain ⟨rest, hrest, hdot⟩ := h
  have hchars : name.toList ++ rest.toList = key.text.toList ++ tail.toList := by
    have hstem : ∃ stem, ∀ s, child parent s = stem ++ s := by
      unfold child
      split
      · exact ⟨".", fun _ => rfl⟩
      · exact ⟨parent ++ ".", fun _ => rfl⟩
    obtain ⟨stem, hstem⟩ := hstem
    rw [hstem, hstem, String.append_assoc, String.append_assoc, String.append_right_inj] at hrest
    rw [← String.toList_append, ← String.toList_append, hrest]
  have hprefix : key.text.toList <+: name.toList := by
    rcases List.append_eq_append_iff.mp hchars with ⟨more, hkey, hmore⟩ | ⟨more, hname, -⟩
    · cases more with
      | nil => exact ⟨[], by simpa using hkey⟩
      | cons c more =>
          -- the dot behind the name would have to belong to the key
          have hc : c = '.' := hdot c (by rw [hmore]; rfl)
          exact absurd (hkey ▸ by simp [hc]) key.dot_notMem
    · exact ⟨more, hname.symm⟩
  obtain ⟨more, hmore⟩ := hprefix
  rw [String.lt_iff, ← hmore]
  exact List.le_append_left

end Path

namespace Document

namespace Node

/-! ### The nodes below a node

Everything below a node has a path that goes on from the node's own, so a search for a
path can skip the whole tree of an entry under which the path does not go on.
-/

mutual

/-- Below a path everything goes on from it. -/
theorem extends_of_mem_ofValue (name : String) {path : String} (h : 1 < path.length) :
    ∀ v, ∀ node ∈ (ofValue name path v).preorder, Path.Extends path node.path
  | .object fields, node, hnode => by
      rw [ofValue, preorder] at hnode
      rcases List.mem_cons.mp hnode with rfl | hmem
      · exact Path.extends_self path
      · exact extends_of_mem_ofEntries h fields node hmem
  | .null, node, hnode | .bool _, node, hnode | .integer _, node, hnode | .float _, node, hnode
  | .string _, node, hnode | .array _, node, hnode => by
      obtain rfl := List.mem_singleton.mp hnode
      exact Path.extends_self path

theorem extends_of_mem_ofEntries {parent : String} (h : 1 < parent.length) :
    ∀ fields, ∀ node ∈ preorderAll (ofEntries parent fields), Path.Extends parent node.path
  | [], node, hnode => absurd hnode List.not_mem_nil
  | (key, v) :: rest, node, hnode => by
      rw [ofEntries, preorderAll] at hnode
      rcases List.mem_append.mp hnode with hmem | hmem
      · exact (Path.extends_child h key).trans
          (extends_of_mem_ofValue key (Path.length_child (.inl h)) v node hmem)
      · exact extends_of_mem_ofEntries h rest node hmem

end

/-- No entry in front of a key has a node with a path through the key. -/
theorem find?_ofEntries {parent tail : String} {key : Key} {fields : Fields Value} {v : Value}
    {node : Node} (hascending : Fields.Ascending fields)
    (hbelow : ∀ entry ∈ fields, 1 < (Path.child parent entry.1).length)
    (hlookup : fields.lookup key.text = some v)
    (hnode : (ofValue key.text (Path.child parent key.text) v).preorder.find?
      (fun n => Path.child parent key.text ++ tail == n.path) = some node) :
    (preorderAll (ofEntries parent fields)).find?
      (fun n => Path.child parent key.text ++ tail == n.path) = some node := by
  induction fields with
  | nil => simp at hlookup
  | cons entry rest ih =>
      obtain ⟨name, u⟩ := entry
      obtain ⟨hname, hrest⟩ := List.pairwise_cons.mp hascending
      rw [ofEntries, preorderAll, List.find?_append]
      by_cases hkey : key.text = name
      · subst hkey
        rw [List.lookup_cons_self] at hlookup
        obtain rfl := Option.some.inj hlookup
        rw [hnode, Option.some_or]
      · rw [List.lookup_cons, beq_false_of_ne hkey] at hlookup
        have hless : name < key.text := by
          obtain ⟨front, back, hsplit, -⟩ := List.lookup_eq_some_iff.mp hlookup
          exact hname (key.text, v) (by simp [hsplit])
        have hskip : (ofValue name (Path.child parent name) u).preorder.find?
            (fun n => Path.child parent key.text ++ tail == n.path) = none := by
          refine List.find?_eq_none.mpr fun n hn heq => ?_
          have hextends := extends_of_mem_ofValue name (hbelow _ List.mem_cons_self) u n hn
          rw [← beq_iff_eq.mp heq] at hextends
          exact Path.not_lt_of_extends_child hextends hless
        rw [hskip, Option.none_or]
        exact ih hrest (fun entry hentry => hbelow entry (List.mem_cons_of_mem _ hentry)) hlookup

/-- Below the root the first node with the path of some keys is the one that they lead to. -/
theorem find?_follow (keys : List Key) : ∀ {v w : Value} {name path : String},
    1 < path.length → v.follow? keys = some w →
      ∃ node, (ofValue name path v.canonical).preorder.find?
        (fun n => path ++ Key.pathText keys == n.path) = some node ∧ node.value = w.canonical := by
  -- on the keys: each one moves on to a child, whose path takes the key over from the rest
  induction keys with
  | nil =>
      intro v w name path _ hw
      obtain rfl := Option.some.inj hw
      refine ⟨ofValue name path v.canonical, ?_, value_ofValue name path v.canonical⟩
      rw [preorder_eq_cons, List.find?_cons, path_ofValue, Key.pathText_nil, String.append_empty,
        beq_self_eq_true]
  | cons key rest ih =>
      intro v w name path hpath hw
      obtain ⟨inner, hinner, hfollow⟩ := Option.bind_eq_some_iff.mp hw
      cases v with
      | null | bool _ | integer _ | float _ | string _ | array _ => simp [Value.field?] at hinner
      | object entries =>
          have hchild : 1 < (Path.child path key.text).length := Path.length_child (.inl hpath)
          obtain ⟨node, hnode, hvalue⟩ := @ih inner w key.text _ hchild hfollow
          have htext : path ++ Key.pathText (key :: rest) =
              Path.child path key.text ++ Key.pathText rest := by
            rw [Path.child_of_below hpath, Key.pathText_cons, String.append_assoc,
              String.append_assoc, String.append_assoc]
          have hhead : (path ++ Key.pathText (key :: rest) == path) = false := by
            refine beq_false_of_ne fun heq => ?_
            have hlength := congrArg String.length heq
            rw [Key.pathText_cons, String.length_append, String.length_append,
              String.length_append] at hlength
            have hdot : ".".length = 1 := rfl
            omega
          have hlookup : (Fields.ofList (Value.canonicalEntries entries)).lookup key.text =
              some inner.canonical := by
            rw [Value.lookup_canonicalEntries, hinner]
            rfl
          refine ⟨node, ?_, hvalue⟩
          rw [Value.canonical, ofValue, preorder,
            List.find?_cons_of_neg (by simp [Node.path, hhead]), htext]
          exact find?_ofEntries (Fields.ascending_ofList _)
            (fun entry _ => Path.length_child (.inl hpath)) hlookup hnode

end Node

/-! ### Below the root

At the root the empty key is either there or not.  If it is, its object is the document
of its own and answers first; what is left has no empty key and is searched as below any
other node.
-/

/-- The value that the object under the empty key has at the path. -/
def shadow? (v : Value) (path : String) : Option Value :=
  (v.field? "").bind fun inner => (ofValue? inner).bind fun d => d.get? path

theorem find?_emptyKey (v : Value) {path : String} (h : 1 < path.length) :
    ((Node.ofValue "" Path.root v.canonical).preorder.find? fun n => path == n.path).map
      Node.value = (ofValue? v).bind fun d => d.get? path := by
  have hroot := Path.ne_root_of_below h
  cases v with
  | object entries =>
      obtain ⟨d, hd⟩ : ∃ d, ofValue? (.object entries) = some d := ⟨_, rfl⟩
      rw [hd, Option.bind_some, get?, find?_eq, root_eq hd]
  | null | bool _ | integer _ | float _ | string _ | array _ =>
      have hleaf : ∀ u, (Node.leaf "" Path.root u).preorder.find? (fun n => path == n.path) =
          none := by
        intro u
        rw [Node.preorder, List.find?_cons_of_neg (by simp [Node.path, hroot]), List.find?_nil]
      simp only [Value.canonical, Node.ofValue, hleaf]
      rfl

/-- The empty key is the least one, so it stands in front. -/
theorem exists_emptyKey_first {fields : Fields Value} (hascending : Fields.Ascending fields)
    {u : Value} (hlookup : fields.lookup "" = some u) :
    ∃ rest, fields = ("", u) :: rest ∧ Fields.Ascending rest ∧ ∀ entry ∈ rest, entry.1 ≠ "" := by
  cases fields with
  | nil => simp at hlookup
  | cons entry rest =>
      obtain ⟨name, x⟩ := entry
      obtain ⟨hname, hrest⟩ := List.pairwise_cons.mp hascending
      have hleast : ∀ s : String, ¬s < "" := by
        intro s
        rw [String.lt_iff]
        exact List.not_lt_nil _
      have hempty : name = "" := by
        by_contra hne
        rw [List.lookup_cons, beq_false_of_ne (Ne.symm hne)] at hlookup
        obtain ⟨front, back, hsplit, -⟩ := List.lookup_eq_some_iff.mp hlookup
        exact hleast name (hname ("", u) (by simp [hsplit]))
      subst hempty
      rw [List.lookup_cons_self] at hlookup
      obtain rfl := Option.some.inj hlookup
      refine ⟨rest, rfl, hrest, fun entry hentry hkey => ?_⟩
      exact hleast "" (hkey ▸ hname entry hentry)

/-- Keys below the root that are not empty lead to the node with their path. -/
theorem find?_keyPath {path : KeyPath} {inner w : Value} (hw : inner.follow? path.more = some w)
    {fields : Fields Value} (hascending : Fields.Ascending fields)
    (hkeys : ∀ entry ∈ fields, entry.1 ≠ "")
    (hlookup : fields.lookup path.first.text = some inner.canonical) :
    ((Node.preorderAll (Node.ofEntries Path.root fields)).find? fun n => path.text == n.path).map
      Node.value = some w.canonical := by
  have hchild : 1 < (Path.child Path.root path.first.text).length :=
    Path.length_child (.inr ⟨rfl, path.first.ne_empty⟩)
  obtain ⟨node, hnode, hvalue⟩ := @Node.find?_follow path.more inner w path.first.text _ hchild hw
  have hfound := Node.find?_ofEntries hascending
    (fun entry hentry => Path.length_child (.inr ⟨rfl, hkeys entry hentry⟩)) hlookup hnode
  rw [← hvalue]
  exact congrArg (Option.map Node.value) hfound

/-- Anything but the root is looked up among its children. -/
theorem get?_of_below {entries : List (String × Value)} {d : Document}
    (hd : ofValue? (.object entries) = some d) {path : String} (h : 1 < path.length) :
    d.get? path = ((Node.preorderAll (Node.ofEntries Path.root
      (Fields.ofList (Value.canonicalEntries entries)))).find? fun n => path == n.path).map
        Node.value := by
  have hroot := Path.ne_root_of_below h
  rw [get?, find?_eq, root_eq hd]
  show (List.find? _ (Node.branch "" Path.root _ :: Node.preorderAll _)).map Node.value = _
  rw [List.find?_cons_of_neg (by simp [Node.path, hroot])]

/-- Looking up the path of some keys gives what they lead to, unless the object under the empty
key has something there. -/
theorem get?_follow {v w : Value} {d : Document} (hd : ofValue? v = some d) (path : KeyPath)
    (hw : v.follow? path.keys = some w) :
    d.get? path.text = some ((shadow? v path.text).getD w.canonical) := by
  obtain ⟨inner, hinner, hfollow⟩ := Option.bind_eq_some_iff.mp hw
  cases v with
  | null | bool _ | integer _ | float _ | string _ | array _ => simp [ofValue?] at hd
  | object entries =>
      have hascending := Fields.ascending_ofList (Value.canonicalEntries entries)
      have hfirst := Value.lookup_canonicalEntries entries path.first.text
      rw [hinner, Option.map_some] at hfirst
      have hlookup := Value.lookup_canonicalEntries entries ""
      rw [get?_of_below hd path.one_lt_length_text, shadow?]
      cases hempty : (Value.object entries).field? "" with
      | none =>
          rw [hempty, Option.map_none, List.lookup_eq_none_iff] at hlookup
          exact find?_keyPath hfollow hascending
            (fun entry hentry => (bne_iff_ne.mp (hlookup entry hentry)).symm) hfirst
      | some u =>
          rw [hempty, Option.map_some] at hlookup
          -- the node for the empty key comes first and answers as a document of its own
          obtain ⟨rest, hsplit, hrest, hkeys⟩ := exists_emptyKey_first hascending hlookup
          rw [hsplit, List.lookup_cons, beq_false_of_ne path.first.ne_empty] at hfirst
          have hbehind := find?_keyPath hfollow hrest hkeys hfirst
          rw [hsplit, Node.ofEntries, Node.preorderAll, List.find?_append, Option.map_or, hbehind]
          show (Option.map Node.value ((Node.ofValue "" Path.root u.canonical).preorder.find? _)).or
            _ = _
          rw [find?_emptyKey u path.one_lt_length_text, Option.or_some]
          rfl

end Document

namespace Query

/--
**The path of some keys selects what they lead to, unless it is shadowed.**  What the object
under the empty key has at the path is selected in its place, so the value that the keys lead to
is selected exactly if nothing else stands there.
-/
theorem run_keyPath_iff {v w : Value} (path : KeyPath) (hw : v.follow? path.keys = some w)
    (merge : Merge) :
    run merge path.text v =
        .ok (.selected ((Document.shadow? v path.text).getD w.canonical)) ∧
      (run merge path.text v = .ok (.selected w.canonical) ↔
        ∀ other, Document.shadow? v path.text = some other → other = w.canonical) := by
  have hdocument : ∃ d, Document.ofValue? v = some d := by
    obtain ⟨inner, hinner, -⟩ := Option.bind_eq_some_iff.mp hw
    cases v with
    | object entries => exact ⟨_, rfl⟩
    | null | bool _ | integer _ | float _ | string _ | array _ => simp [Value.field?] at hinner
  obtain ⟨d, hd⟩ := hdocument
  have hrun := run_keyPath path hd (Document.get?_follow hd path hw) merge
  refine ⟨hrun, ?_⟩
  rw [hrun]
  cases hshadow : Document.shadow? v path.text with
  | none => simp
  | some other => simp

/-- The object under the empty key hides the field `a`. -/
theorem run_keyPath_iff_shadowed :
    ∃ d : Value, d.field? "a" = some (.integer 2) ∧
      run .overwrite ".a" d = .ok (.selected (.integer 1)) := by
  have hfollow : (Value.object [("", .object [("a", .integer 1)]), ("a", .integer 2)]).follow?
      [⟨"a", by decide, List.all_eq_true.mp (by decide)⟩] = some (.integer 2) := rfl
  exact ⟨_, rfl, (run_keyPath_iff ⟨_, []⟩ hfollow .overwrite).1⟩

end Query

end FieldQuery

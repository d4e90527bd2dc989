/-
Selecting several fields and building the objects on their way anew.

A field that is placed so takes over the first name of its path as a whole: it stands
there inside objects with a single key each, and whatever stood there is gone.  The same
happens when the objects on the way are entered and nothing stands at the first name
(`insertUnder_cons_eq`), so that both ways of merging can be treated at once.

What is selected is therefore a list of entries, one for each field, brought in order
(`merged_eq_ofList`).  Of several entries with one key the last counts, which is where
the order of the selectors matters; and if no two fields have one first name, nothing is
ever in the way and both ways of merging select the same.

The root has a path, too, and its only piece is the empty one.  It is one field among
the others here, with the whole document as its value.
-/
import FieldQuery.Proofs.Document.Ways
import FieldQuery.Proofs.Selection.Restriction

namespace FieldQuery

/-- A value inside objects with a single key each, under these names. -/
def Value.wrapped (v : Value) : List String → Value
  | [] => v
  | name :: rest => .object [(name, v.wrapped rest)]

namespace Fields

/-! ### Placing at a name where nothing is kept

Either merge reduces to insertion of one entry.  The condition on the fields is the same
in both lemmas: objects are built anew, or there is nothing at the first name yet.
-/

/-- Where nothing stands a value is placed inside objects of its own. -/
theorem insertUnder_nil (merge : Merge) (v : Value) (name : String) (rest : List String) :
    insertUnder merge v (name :: rest) [] = [(name, v.wrapped rest)] := by
  induction rest generalizing name with
  | nil => rfl
  | cons next rest ih =>
      have hinner : merge.inner none = [] := by cases merge <;> rfl
      rw [insertUnder, alter, hinner, ih, Value.wrapped]

/-- A value that is placed takes its first name over if objects are built anew or nothing stands
there. -/
theorem insertUnder_cons_eq {merge : Merge} {fields : Fields Value} (h : Ascending fields)
    {name : String} (hfree : merge = .overwrite ∨ fields.lookup name = none) (v : Value)
    (rest : List String) :
    insertUnder merge v (name :: rest) fields = insert name (v.wrapped rest) fields := by
  cases rest with
  | nil => rfl
  | cons next rest =>
      have hinner : merge.inner (fields.lookup name) = [] := by
        rcases hfree with rfl | hnone
        · rfl
        · rw [hnone]
          cases merge <;> rfl
      refine alter_congr h ?_
      rw [hinner, insertUnder_nil]
      rfl

end Fields

namespace Document.Node

/-- The entry that stands for a placed node: the first piece of its path, with its value under
the other pieces. -/
def placed? (node : Node) : Option (String × Value) :=
  match node.segments with
  | [] => none
  | name :: rest => some (name, node.value.wrapped rest)

end Document.Node

namespace Query

open Document.Node (placed?)

/-- Nodes are placed entry by entry if objects are built anew, or if every node has a first name
of its own. -/
theorem foldl_insertUnder_eq {merge : Merge} (nodes : List Document.Node) {fields : Fields Value}
    (h : fields.Ascending)
    (hfree : merge = .overwrite ∨ ((nodes.filterMap placed?).map Prod.fst).Nodup ∧
      ∀ entry ∈ nodes.filterMap placed?, fields.lookup entry.1 = none) :
    nodes.foldl (fun fields node => Fields.insertUnder merge node.value node.segments fields)
      fields = Fields.insertAll (nodes.filterMap placed?) fields := by
  induction nodes generalizing fields with
  | nil => rfl
  | cons node rest ih =>
      rw [List.foldl_cons]
      cases hsegments : node.segments with
      | nil =>
          have hentry : placed? node = none := by rw [placed?, hsegments]
          rw [List.filterMap_cons_none hentry] at hfree ⊢
          exact ih h hfree
      | cons name more =>
          have hentry : placed? node = some (name, node.value.wrapped more) := by
            rw [placed?, hsegments]
          rw [List.filterMap_cons_some hentry] at hfree ⊢
          have hhead : merge = .overwrite ∨ fields.lookup name = none :=
            hfree.imp_right fun hnames => hnames.2 _ List.mem_cons_self
          rw [Fields.insertUnder_cons_eq h hhead]
          refine ih (h.alter _ _) (hfree.imp_right ?_)
          rintro ⟨hnodup, habsent⟩
          obtain ⟨hfresh, hrest⟩ := List.nodup_cons.mp hnodup
          refine ⟨hrest, fun entry hmem => ?_⟩
          -- the name that has just been placed is not that of a later node
          have hne : entry.1 ≠ name := fun heq => hfresh (heq ▸ List.mem_map.mpr ⟨entry, hmem, rfl⟩)
          rw [Fields.insert, Fields.lookup_alter_of_ne _ hne]
          exact habsent entry (List.mem_cons_of_mem _ hmem)

/-- The object in which nodes stand has their entries in order. -/
theorem merged_eq_ofList {merge : Merge} {nodes : List Document.Node}
    (hfree : merge = .overwrite ∨ ((nodes.filterMap placed?).map Prod.fst).Nodup) :
    merged merge nodes = .object (Fields.ofList (nodes.filterMap placed?)) := by
  rw [merged, foldl_insertUnder_eq nodes List.Pairwise.nil
    (hfree.imp_right fun hnodup => ⟨hnodup, fun _ _ => rfl⟩), Fields.insertAll_nil]

/-! ### The entries of selectors

An entry is named by the path that was asked for.  The node that is found carries the
same path, so nothing more than its value is taken from the document.
-/

variable {d : Document} {selectors : List String}

/-- The entry that stands for a selected field. -/
def placedAt? (d : Document) (path : String) : Option (String × Value) :=
  (d.find? path).bind placed?

theorem placedAt?_eq_some_iff {path name : String} {w : Value} :
    placedAt? d path = some (name, w) ↔ ∃ rest v,
      Path.segments path = name :: rest ∧ d.get? path = some v ∧ w = v.wrapped rest := by
  unfold placedAt? Document.get?
  cases hfind : d.find? path with
  | none => simp
  | some node =>
      rw [Option.bind_some, placed?, Document.Node.segments, Document.path_of_find? hfind]
      cases Path.segments path with
      | nil => simp
      | cons first more => simp [eq_comm]

theorem exists_placedAt? {path name : String} (hfound : d.contains path = true) :
    (∃ w, placedAt? d path = some (name, w)) ↔ (Path.segments path).head? = some name := by
  obtain ⟨v, hv⟩ := Document.exists_get? hfound
  simp only [placedAt?_eq_some_iff, hv, List.head?_eq_some_iff]
  constructor
  · rintro ⟨-, rest, -, hsegments, -⟩
    exact ⟨rest, hsegments⟩
  · rintro ⟨rest, hsegments⟩
    exact ⟨_, rest, v, hsegments, rfl, rfl⟩

theorem nodup_entries (h : (selectors.map fun path => (Path.segments path).head?).Nodup) :
    ((selectors.filterMap (placedAt? d)).map Prod.fst).Nodup := by
  rw [List.map_filterMap, List.Nodup, List.pairwise_filterMap]
  refine (List.pairwise_map.mp h).imp fun {path other} hne name hname name' hname' heq => hne ?_
  have hhead : ∀ {p n}, Option.map Prod.fst (placedAt? d p) = some n →
      (Path.segments p).head? = some n := by
    intro p n hn
    obtain ⟨⟨_, w⟩, hentry, rfl⟩ := Option.map_eq_some_iff.mp hn
    obtain ⟨rest, -, hsegments, -⟩ := placedAt?_eq_some_iff.mp hentry
    rw [hsegments]
    rfl
  rw [hhead hname, hhead hname', heq]

theorem mem_keys_entries (hfound : ∀ path ∈ selectors, d.contains path = true) (name : String) :
    name ∈ (Fields.ofList (selectors.filterMap (placedAt? d))).map Prod.fst ↔
      ∃ path ∈ selectors, (Path.segments path).head? = some name := by
  rw [Fields.mem_keys_ofList, List.mem_map]
  constructor
  · rintro ⟨⟨_, w⟩, hentry, rfl⟩
    obtain ⟨path, hpath, hplaced⟩ := List.mem_filterMap.mp hentry
    exact ⟨path, hpath, (exists_placedAt? (hfound path hpath)).mp ⟨w, hplaced⟩⟩
  · rintro ⟨path, hpath, hhead⟩
    obtain ⟨w, hplaced⟩ := (exists_placedAt? (hfound path hpath)).mpr hhead
    exact ⟨(name, w), List.mem_filterMap.mpr ⟨path, hpath, hplaced⟩, rfl⟩

/-- At a first piece stands the last field that has it. -/
theorem lookup_entries_of_last (front : List String) {path : String} {back : List String}
    {name : String} {rest : List String} {v : Value}
    (hfound : ∀ later ∈ back, d.contains later = true)
    (hsegments : Path.segments path = name :: rest) (hv : d.get? path = some v)
    (hback : ∀ later ∈ back, (Path.segments later).head? ≠ some name) :
    (Fields.ofList ((front ++ path :: back).filterMap (placedAt? d))).lookup name =
      some (v.wrapped rest) := by
  have hplaced : placedAt? d path = some (name, v.wrapped rest) :=
    placedAt?_eq_some_iff.mpr ⟨rest, v, hsegments, hv, rfl⟩
  rw [List.filterMap_append, List.filterMap_cons_some hplaced]
  refine Fields.lookup_ofList_of_last _ fun entry hentry hkey => ?_
  obtain ⟨later, hlater, hplacedAt⟩ := List.mem_filterMap.mp hentry
  exact hback later hlater
    ((exists_placedAt? (hfound later hlater)).mp ⟨entry.2, hkey ▸ hplacedAt⟩)

theorem merged_filterMap_find? {merge : Merge}
    (hfree : merge = .overwrite ∨
      (selectors.map fun path => (Path.segments path).head?).Nodup) :
    merged merge (selectors.filterMap d.find?) =
      .object (Fields.ofList (selectors.filterMap (placedAt? d))) := by
  have hentries : (selectors.filterMap d.find?).filterMap placed? =
      selectors.filterMap (placedAt? d) := List.filterMap_filterMap
  rw [merged_eq_ofList, hentries]
  rw [hentries]
  exact hfree.imp_right nodup_entries

/-- Without a first piece in common the fields are put together in one way. -/
theorem gather_deep_eq (h : (selectors.map fun path => (Path.segments path).head?).Nodup) :
    gather .deep selectors d = gather .overwrite selectors d := by
  unfold gather
  split
  · rfl
  · rw [merged_filterMap_find? (.inr h), merged_filterMap_find? (.inl rfl)]

/--
**Of several fields with one first piece the last is selected.**  When objects are built anew, at
least two fields that the document has, whatever its keys, select an object.  Every path has a
first piece; the object has these as its keys, and at each key the value of the last of the fields
with this first piece, inside objects with a single key each under the other pieces.  And if no two
fields have one first piece, entering the objects that are there selects the same.
-/
theorem select_overwrite {q : Query} (htwo : 2 ≤ q.selectors.length)
    (hfound : ∀ path ∈ q.selectors, d.contains path = true) :
    ∃ fields : Fields Value,
      select .overwrite q d =
        .ok (if q.accepts d then .selected (.object fields) else .filtered) ∧
      fields.Ascending ∧ (∀ path ∈ q.selectors, Path.segments path ≠ []) ∧
      (∀ name, name ∈ fields.map Prod.fst ↔
        ∃ path ∈ q.selectors, (Path.segments path).head? = some name) ∧
      (∀ front path back name rest, q.selectors = front ++ path :: back →
        Path.segments path = name :: rest →
        (∀ later ∈ back, (Path.segments later).head? ≠ some name) →
        ∃ v, d.get? path = some v ∧ fields.lookup name = some (v.wrapped rest)) ∧
      ((q.selectors.map fun path => (Path.segments path).head?).Nodup →
        select .deep q d = select .overwrite q d) := by
  refine ⟨Fields.ofList (q.selectors.filterMap (placedAt? d)), ?_, Fields.ascending_ofList _,
    fun path hpath => Document.segments_ne_nil (hfound path hpath),
    mem_keys_entries hfound, ?_, ?_⟩
  · rw [select_of_all_found hfound, gather_of_found htwo hfound,
      merged_filterMap_find? (.inl rfl)]
  · intro front path back name rest hsplit hsegments hback
    obtain ⟨v, hv⟩ := Document.exists_get? (hfound path (by simp [hsplit]))
    have hlater : ∀ later ∈ back, d.contains later = true := by
      intro later hmem
      exact hfound later (by simp [hsplit, hmem])
    rw [hsplit]
    exact ⟨v, hv, lookup_entries_of_last front hlater hsegments hv hback⟩
  · intro hnodup
    rw [select_of_all_found hfound, select_of_all_found hfound, gather_deep_eq hnodup]

/-- A field erases an earlier one with its first piece and leaves the root beside it, which
stands at the empty key. -/
theorem select_overwrite_erased :
    ∃ d fields, Document.ofValue? (.object [("a", .object [("b", .integer 1), ("c", .null)])]) =
        some d ∧
      select .overwrite ⟨[".a.b", ".", ".a.c"], none⟩ d = .ok (.selected (.object fields)) ∧
      (∀ name, name ∈ fields.map Prod.fst ↔ name = "" ∨ name = "a") ∧
      fields.lookup "a" = some (.object [("c", .null)]) ∧
      fields.lookup "" = some (.object [("a", .object [("b", .integer 1), ("c", .null)])]) := by
  obtain ⟨d, hd⟩ : ∃ d, Document.ofValue? (.object [("a", .object [("b", .integer 1),
    ("c", .null)])]) = some d := ⟨_, rfl⟩
  have hwhole := Document.get?_root hd
  have hc : d.get? ".a.c" = some .null := by
    obtain rfl := Option.some.inj hd
    rfl
  have hfound : ∀ path ∈ [".a.b", ".", ".a.c"], d.contains path = true := by
    obtain rfl := Option.some.inj hd
    decide
  have hab : Path.segments ".a.b" = ["a", "b"] := by decide
  have hac : Path.segments ".a.c" = ["a", "c"] := by decide
  have hroot : Path.segments "." = [""] := by decide
  obtain ⟨fields, hselect, -, -, hkeys, hlast, -⟩ :=
    @select_overwrite d ⟨[".a.b", ".", ".a.c"], none⟩ (by decide) hfound
  refine ⟨d, fields, hd, hselect, fun name => ?_, ?_, ?_⟩
  · rw [hkeys]
    simp only [List.exists_mem_cons_iff, List.not_mem_nil, false_and, exists_false, or_false, hab,
      hac, hroot, List.head?_cons, Option.some.injEq]
    grind
  · obtain ⟨v, hv, hlookup⟩ := hlast [".a.b", "."] ".a.c" [] "a" ["c"] rfl hac (by simp)
    obtain rfl := Option.some.inj (hc.symm.trans hv)
    exact hlookup
  · obtain ⟨v, hv, hlookup⟩ := hlast [".a.b"] "." [".a.c"] "" [] rfl hroot (by simp [hac])
    obtain rfl := Option.some.inj (hwhole.symm.trans hv)
    exact hlookup

end Query

end FieldQuery

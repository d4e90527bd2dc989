/-
Asking for the paths that a document lists.

A document joins keys behind dots and a query is cut at its dots, and neither knows of
the other. They meet in the text alone: where keys are made of word characters and dots,
every path is such a text behind a dot, `Spellable.foldl_child`, and every such text is
a query for itself, `parse_of_spellable`.  Keys that are empty, hold dots, look like
keywords or spell the path of another node need no case of their own.

What comes back is what the index has at the path, which need not be the node whose keys
spell it. For any other character in a key nothing of this holds: a blank or a
parenthesis is not part of a path, and the query ends there or is none.
-/
import FieldQuery.Proofs.Document.Index
import FieldQuery.Proofs.FieldPath

namespace FieldQuery

namespace Path

/-- Whether the name has nothing but word characters and dots; it may be empty. -/
def Spellable (name : String) : Prop := ∀ c ∈ name.toList, c = '.' ∨ Text.isWord c = true

theorem Spellable.child {parent name : String} (h : parent.toList.head? = some '.')
    (hparent : Spellable parent) (hname : Spellable name) : Spellable (child parent name) := by
  obtain ⟨stem, hstem, -, hchars⟩ := exists_child_eq h name
  intro c hc
  rw [hstem, String.toList_append, List.mem_append] at hc
  rcases hc with hc | hc
  · exact (hchars c hc).elim (hparent c) .inl
  · exact hname c hc

/-- Spellable names make spellable paths. -/
theorem Spellable.foldl_child {names : List String} (hnames : ∀ name ∈ names, Spellable name)
    {path : String} (h : path.toList.head? = some '.') (hpath : Spellable path) :
    Spellable (names.foldl Path.child path) := by
  induction names generalizing path with
  | nil => exact hpath
  | cons name rest ih =>
      obtain ⟨hname, hrest⟩ := List.forall_mem_cons.mp hnames
      exact ih hrest (head_child h name) (hpath.child h hname)

theorem spellable_root : Spellable root := by
  intro c hc
  exact .inl (List.mem_singleton.mp hc)

end Path

namespace Query

/-- A spellable text behind a dot is a query for itself. -/
theorem parse_of_spellable {path : String} (h : path.toList.head? = some '.')
    (hpath : Path.Spellable path) : parse path = .ok ⟨[path], none⟩ := by
  refine parse_spelled (Path.segments_ne_nil h) ?_ (Path.spelled_segments h)
  intro name hname c hc
  obtain ⟨hmem, hdot⟩ := Path.mem_of_mem_segments hname hc
  exact (hpath c hmem).resolve_left hdot

/--
**Every listed path is a query for its node.**  Where all keys are made of word characters and
dots, each path that the document lists is read as a query for this one path, and the query gives
what the document has there.
-/
theorem run_listed {entries : List (String × Value)} {d : Document}
    (hd : Document.ofValue? (.object entries) = some d)
    (hkeys : (Value.object entries).EveryKey Path.Spellable) {path : String}
    (hpath : path ∈ d.paths) (merge : Merge) :
    parse path = .ok ⟨[path], none⟩ ∧
      ∃ w, d.get? path = some w ∧ run merge path (.object entries) = .ok (.selected w) := by
  have hcontains := (d.mem_paths_iff path).mp hpath
  obtain ⟨numbers, node, hwalk, rfl⟩ := (d.contains_iff path).mp hcontains
  -- the path is spelled by the keys on the way to the node
  obtain ⟨keys, v, -, hv, hnode⟩ := Document.exists_of_descend? hd hwalk
  have htext : node.path = keys.foldl Path.child Path.root := by
    rw [hnode, Document.Node.path_ofValue]
  have hhead : node.path.toList.head? = some '.' := by
    rw [htext]
    exact Path.head_foldl_child keys rfl
  have hspellable : Path.Spellable node.path := by
    rw [htext]
    exact Path.Spellable.foldl_child (hkeys.of_at? hv) rfl Path.spellable_root
  have hparse := parse_of_spellable hhead hspellable
  obtain ⟨found, hfound⟩ := Option.isSome_iff_exists.mp hcontains
  have hget : d.get? node.path = some found.value := by
    rw [Document.get?, hfound]
    rfl
  exact ⟨hparse, found.value, hget, run_path hparse hd hget merge⟩

/-- A key that is empty, one that begins and ends with dots, and one that is a word of the
language. -/
theorem run_listed_dots :
    run .deep "..where...in"
        (.object [("", .object [(".where..", .object [("in", .integer 1)])])]) =
      .ok (.selected (.integer 1)) := by
  have hkeys : (Value.object [("", .object [(".where..", .object [("in", .integer 1)])])]).EveryKey
      Path.Spellable := by
    have hspellable : ∀ name, (name.toList.all fun c => c == '.' || Text.isWord c) = true →
        Path.Spellable name := by
      intro name hall c hc
      simpa using List.all_eq_true.mp hall c hc
    have hinner : (Value.object [("in", .integer 1)]).EveryKey Path.Spellable :=
      ⟨hspellable "in" (by decide), trivial, trivial⟩
    exact ⟨hspellable "" rfl, ⟨hspellable ".where.." (by decide), hinner, trivial⟩, trivial⟩
  obtain ⟨-, w, hw, hrun⟩ := @run_listed _ _ rfl hkeys "..where...in" (by decide) .deep
  obtain rfl := Option.some.inj hw
  exact hrun

end Query

end FieldQuery

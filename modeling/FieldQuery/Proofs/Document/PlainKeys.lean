/-
Keys that a path gives back.

The path of a node is cut at its dots, so a key comes back only if it is not empty and
has no dot. In a document with such keys alone every path but the root's is the path of
one list of keys, which is what it is cut into, and it is found at what these keys lead
to: `at?_segments`.

Both conditions are needed.  An empty key below the root spells the path of the root
again, and a key with a dot spells the path of two keys.  Neither is refused when a
document is made; there is only no way back from the path.
-/
import FieldQuery.Proofs.Document.Index

namespace FieldQuery

namespace Path

/-- Whether a path that goes through the name gives it back. -/
def Plain (name : String) : Prop := name ≠ "" ∧ '.' ∉ name.toList

/-- Below the root every name is added behind a dot. -/
theorem toList_foldl_child (names : List String) {path : String} (h : 1 < path.length) :
    (names.foldl child path).toList = path.toList ++ spelled names := by
  induction names generalizing path with
  | nil => exact (List.append_nil _).symm
  | cons name rest ih =>
      rw [List.foldl_cons, ih (length_child (.inl h)), child_of_below h, spelled_cons]
      simp

theorem toList_foldl_child_root {names : List String} (hne : names ≠ [])
    (hplain : ∀ name ∈ names, Plain name) :
    (names.foldl child root).toList = spelled names := by
  obtain ⟨name, rest, rfl⟩ := List.exists_cons_of_ne_nil hne
  have hname : name ≠ "" := (hplain name List.mem_cons_self).1
  rw [List.foldl_cons, toList_foldl_child rest (length_child (.inr ⟨rfl, hname⟩)), child,
    if_pos rfl, spelled_cons]
  simp

/-- Plain names are the pieces of their path. -/
theorem segments_foldl_child {names : List String} (hne : names ≠ [])
    (hplain : ∀ name ∈ names, Plain name) : segments (names.foldl child root) = names := by
  rw [segments, toList_foldl_child_root hne hplain,
    cut_spelled fun name hname => (hplain name hname).2, List.map_map]
  simp [Function.comp_def]

end Path

namespace Value

mutual

/-- Whether all keys of the object, and of the objects at its keys, are plain. -/
def PlainKeys : Value → Prop
  | .object entries => PlainEntries entries
  | _ => True

/-- Whether all keys of the entries, and of the objects at them, are plain. -/
def PlainEntries : List (String × Value) → Prop
  | [] => True
  | (key, v) :: rest => Path.Plain key ∧ v.PlainKeys ∧ PlainEntries rest

end

mutual

/-- Plain keys are keys that a path gives back, each of them. -/
theorem plainKeys_iff : ∀ v : Value, v.PlainKeys ↔ v.EveryKey Path.Plain
  | .object entries => plainEntries_iff entries
  | .null | .bool _ | .integer _ | .float _ | .string _ | .array _ => Iff.rfl

theorem plainEntries_iff : ∀ entries : List (String × Value),
    PlainEntries entries ↔ EveryEntry Path.Plain entries
  | [] => Iff.rfl
  | (_, v) :: rest => and_congr_right' (and_congr (plainKeys_iff v) (plainEntries_iff rest))

end

/-- Keys that lead somewhere are plain. -/
theorem PlainKeys.of_at? {v w : Value} (h : v.PlainKeys) {keys : List String}
    (hw : v.at? keys = some w) : ∀ key ∈ keys, Path.Plain key :=
  EveryKey.of_at? ((plainKeys_iff v).mp h) hw

end Value

namespace Document

/-- Where all keys are plain, a path below the root is found at what its pieces lead to. -/
theorem at?_segments {entries : List (String × Value)} {d : Document}
    (hd : ofValue? (.object entries) = some d) (hplain : (Value.object entries).PlainKeys)
    {path : String} (hroot : path ≠ Path.root) {node : Node} (h : d.find? path = some node) :
    Path.segments path ≠ [] ∧ (Path.segments path).foldl Path.child Path.root = path ∧
      node.segments = Path.segments path ∧
      ∃ w, (Value.object entries).at? (Path.segments path) = some w ∧ node.value = w.canonical := by
  obtain ⟨numbers, hfirst⟩ := exists_first_of_mem h
  obtain ⟨keys, w, -, hw, hnode⟩ := exists_of_descend? hd hfirst.reaches
  have hpath : keys.foldl Path.child Path.root = path := by
    rw [← hfirst.path_eq, hnode, Node.path_ofValue]
  have hne : keys ≠ [] := by
    rintro rfl
    exact hroot hpath.symm
  have hsegments : Path.segments path = keys := by
    rw [← hpath]
    exact Path.segments_foldl_child hne (hplain.of_at? hw)
  rw [hsegments, Node.segments, hfirst.path_eq, hsegments, hnode, Node.value_ofValue]
  exact ⟨hne, hpath, rfl, w, hw, rfl⟩

end Document

end FieldQuery

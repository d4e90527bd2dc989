/-
Paths that are written key by key.

A key is a name that is not empty and is made of word characters.  A dot begins a field
and a word character continues it, so a list of keys, each written behind a dot, is cut
into one field for each (`reads_pathText`), and fields without anything between them are
one path (`parse_text`).  On a document the query therefore gives what stands at that
path (`run_keyPath`), which is what an index lookup answers.

An empty key cannot be written in this way if it is the only one: its path is the path
of the root.  Lists of names that may be empty or contain dots are in `ListedPath`.
-/
import FieldQuery.Proofs.Document.Lookup
import FieldQuery.Proofs.FieldPath

namespace FieldQuery

/-- A key that a path can name. -/
structure Key where
  text : String
  ne_empty : text ≠ ""
  isWord : ∀ c ∈ text.toList, Text.isWord c = true

/-- The fields that keys are written as. -/
def Key.fields (keys : List Key) : List String := keys.map fun key => "." ++ key.text

/-- What keys add to a path. -/
def Key.pathText (keys : List Key) : String := (Key.fields keys).foldr (· ++ ·) ""

/-- One or more keys. -/
structure KeyPath where
  first : Key
  more : List Key

namespace Key

@[simp] theorem pathText_nil : pathText [] = "" := rfl

theorem pathText_cons (key : Key) (rest : List Key) :
    pathText (key :: rest) = "." ++ key.text ++ pathText rest := rfl

theorem fields_eq (keys : List Key) : fields keys = (keys.map Key.text).map ("." ++ ·) := by
  rw [fields, List.map_map]
  rfl

/-- A path is spelled by the texts of its keys. -/
theorem toList_pathText (keys : List Key) :
    (pathText keys).toList = Path.spelled (keys.map Key.text) := by
  rw [pathText, fields_eq, Path.toList_foldr_fields]

theorem isWord_of_mem {keys : List Key} {name : String} (h : name ∈ keys.map Key.text) :
    ∀ c ∈ name.toList, Text.isWord c = true := by
  obtain ⟨key, -, rfl⟩ := List.mem_map.mp h
  exact key.isWord

theorem dot_notMem (key : Key) : '.' ∉ key.text.toList := by
  intro hdot
  exact absurd (key.isWord '.' hdot) (by decide)

/-- Keys are cut into one field each. -/
theorem reads_pathText (keys : List Key) {rest : List Char}
    (hrest : ∀ c ∈ rest.head?, Text.isWord c = false) :
    Lexeme.Reads (pathText keys).toList rest ((fields keys).map (Prod.mk Token.field)) := by
  rw [toList_pathText, fields_eq]
  exact Lexeme.reads_spelled (fun _ => isWord_of_mem) hrest

end Key

namespace KeyPath

/-- All keys of the path. -/
def keys (path : KeyPath) : List Key := path.first :: path.more

/-- The path as it is written. -/
def text (path : KeyPath) : String := Key.pathText path.keys

theorem one_lt_length_text (path : KeyPath) : 1 < path.text.length := by
  have hne : path.first.text.length ≠ 0 := fun hzero =>
    path.first.ne_empty (String.length_eq_zero_iff.mp hzero)
  have hdot : ".".length = 1 := rfl
  rw [text, keys, Key.pathText_cons, String.length_append, String.length_append]
  omega

/-- The path is no query but itself. -/
theorem parse_text (path : KeyPath) : Query.parse path.text = .ok ⟨[path.text], none⟩ := by
  have hne : path.keys.map Key.text ≠ [] := List.cons_ne_nil _ _
  exact Query.parse_spelled hne (fun _ => Key.isWord_of_mem) (Key.toList_pathText path.keys).symm

end KeyPath

namespace Query

/-- A query that lists keys gives what stands at their path. -/
theorem run_keyPath (path : KeyPath) {v w : Value} {d : Document}
    (hd : Document.ofValue? v = some d) (hw : d.get? path.text = some w) (merge : Merge) :
    run merge path.text v = .ok (.selected w) :=
  run_path path.parse_text hd hw merge

end Query

end FieldQuery

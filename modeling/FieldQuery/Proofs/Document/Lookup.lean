/-
What nodes stand for.

A node gives back the value that it was made from, whatever name and path it has, and
the whole document stands at the path of the root.  With this and the first node of a
path, which is what `find?_eq` gives, the arena need not be opened again.
-/
import FieldQuery.Proofs.Document.Arena
import FieldQuery.Proofs.Fields

namespace FieldQuery

namespace Document

namespace Node

/-! ### Values of nodes -/

mutual

/-- A node stands for the value that it was made from. -/
theorem value_ofValue (name path : String) : ∀ v, (ofValue name path v).value = v
  | .object fields => by rw [ofValue, value, entries_ofEntries path fields]
  | .null | .bool _ | .integer _ | .float _ | .string _ | .array _ => rfl

theorem entries_ofEntries (parent : String) : ∀ fields, entries (ofEntries parent fields) = fields
  | [] => rfl
  | (key, v) :: rest => by
      rw [ofEntries, entries, value_ofValue, entries_ofEntries parent rest, name_ofValue]

end

end Node

end Document

/-- The whole document stands at the path of the root. -/
theorem Document.get?_root {v : Value} {d : Document} (hd : ofValue? v = some d) :
    d.get? Path.root = some v.canonical := by
  cases v with
  | object entries =>
      rw [get?, find?_eq, root_eq hd]
      exact congrArg some (Node.value_ofValue "" Path.root (Value.object entries).canonical)
  | null | bool _ | integer _ | float _ | string _ | array _ => simp [ofValue?] at hd

namespace Value

/-! ### Objects in order

The canonical form changes the values of the entries first and brings them in order
afterwards, so their keys are the keys of the object.
-/

theorem canonicalEntries_eq_map (entries : List (String × Value)) :
    canonicalEntries entries = entries.map (Prod.map id canonical) := by
  induction entries with
  | nil => rfl
  | cons entry rest ih =>
      rw [canonicalEntries, ih, List.map_cons]
      rfl

theorem map_fst_canonicalEntries (entries : List (String × Value)) :
    (canonicalEntries entries).map Prod.fst = entries.map Prod.fst := by
  rw [canonicalEntries_eq_map, List.map_map]
  rfl

end Value

end FieldQuery

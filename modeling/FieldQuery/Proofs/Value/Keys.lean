/-
Keys and what they lead to.

The entries of an object stand in any order and can repeat a key, but its keys have one
ascending order, and a key leads to one value.  The canonical form of an object lists
its entries in just this order: `getElem?_canonicalEntries` reads the entry with a
number off the keys and the values that they lead to.

What the keys are is said of the object as it is written.  This is the point of it: a
statement about a document can then name keys and numbers of the JSON text that was
read, and nothing of the form that the document keeps.
-/
import FieldQuery.Proofs.Document.Follow
import Mathlib.Data.List.Dedup
import Mathlib.Data.List.Sort
import Mathlib.Data.String.Basic

namespace FieldQuery

namespace Value

/-- The keys of an object in ascending order, each of them once; other values have none. -/
def keys : Value → List String
  | .object entries => (entries.map Prod.fst).dedup.insertionSort (· ≤ ·)
  | _ => []

/-- The value that any keys lead to, one after the other. -/
def at? (v : Value) : List String → Option Value
  | [] => some v
  | key :: rest => (v.field? key).bind fun inner => inner.at? rest

theorem at?_cons (v : Value) (key : String) (rest : List String) :
    v.at? (key :: rest) = (v.field? key).bind fun inner => inner.at? rest := rfl

theorem ascending_keys (v : Value) : v.keys.Pairwise (· < ·) := by
  cases v with
  | object entries =>
      have hsorted : (keys (.object entries)).Pairwise (· ≤ ·) :=
        List.pairwise_insertionSort (· ≤ ·) _
      have hnodup : (keys (.object entries)).Nodup :=
        (List.perm_insertionSort (· ≤ ·) _).nodup_iff.mpr (List.nodup_dedup _)
      exact (hsorted.and hnodup).imp fun h => lt_of_le_of_ne h.1 h.2
  | null | bool _ | integer _ | float _ | string _ | array _ => exact List.Pairwise.nil

/-- The canonical form of an object has its keys in order. -/
theorem keys_canonicalEntries (entries : List (String × Value)) :
    (Fields.ofList (canonicalEntries entries)).map Prod.fst = (Value.object entries).keys := by
  refine List.Pairwise.eq_of_mem_iff (Fields.ascending_ofList _).keys (ascending_keys _) ?_
  intro key
  rw [Fields.mem_keys_ofList, map_fst_canonicalEntries, keys, List.mem_insertionSort,
    List.mem_dedup]

/-- An entry of the canonical form of an object is a key and what it leads to. -/
theorem getElem?_canonicalEntries (entries : List (String × Value)) (i : Nat) :
    (Fields.ofList (canonicalEntries entries))[i]? =
      (Value.object entries).keys[i]?.bind fun key =>
        ((Value.object entries).field? key).map fun inner => (key, inner.canonical) := by
  rw [← keys_canonicalEntries, List.getElem?_map]
  cases hentry : (Fields.ofList (canonicalEntries entries))[i]? with
  | none => rfl
  | some entry =>
      obtain ⟨key, u⟩ := entry
      have hlookup := Fields.lookup_of_mem (Fields.ascending_ofList _)
        (List.mem_of_getElem? hentry)
      rw [lookup_canonicalEntries] at hlookup
      obtain ⟨inner, hinner, rfl⟩ := Option.map_eq_some_iff.mp hlookup
      rw [Option.map_some, Option.bind_some, hinner, Option.map_some]

/-! ### What all keys are -/

mutual

/-- Whether all keys of the object, and of the objects at its keys, are of this kind. -/
def EveryKey (p : String → Prop) : Value → Prop
  | .object entries => EveryEntry p entries
  | _ => True

/-- Whether all keys of the entries, and of the objects at them, are of this kind. -/
def EveryEntry (p : String → Prop) : List (String × Value) → Prop
  | [] => True
  | (key, v) :: rest => p key ∧ v.EveryKey p ∧ EveryEntry p rest

end

variable {p : String → Prop}

theorem EveryEntry.of_mem {entries : List (String × Value)} (h : EveryEntry p entries)
    {key : String} {v : Value} (hmem : (key, v) ∈ entries) : p key ∧ v.EveryKey p := by
  induction entries with
  | nil => exact absurd hmem List.not_mem_nil
  | cons entry rest ih =>
      obtain ⟨hkey, hv, hrest⟩ := h
      rcases List.mem_cons.mp hmem with rfl | hmem
      · exact ⟨hkey, hv⟩
      · exact ih hrest hmem

theorem EveryKey.of_field? {v inner : Value} (h : v.EveryKey p) {key : String}
    (hinner : v.field? key = some inner) : p key ∧ inner.EveryKey p := by
  cases v with
  | object entries =>
      exact EveryEntry.of_mem h (List.mem_reverse.mp (Fields.mem_of_lookup hinner))
  | null | bool _ | integer _ | float _ | string _ | array _ => simp [field?] at hinner

/-- Keys that lead somewhere are of the kind that all keys are. -/
theorem EveryKey.of_at? {v w : Value} (h : v.EveryKey p) {keys : List String}
    (hw : v.at? keys = some w) : ∀ key ∈ keys, p key := by
  induction keys generalizing v with
  | nil => simp
  | cons key rest ih =>
      obtain ⟨inner, hinner, hrest⟩ := Option.bind_eq_some_iff.mp hw
      obtain ⟨hkey, hevery⟩ := h.of_field? hinner
      exact List.forall_mem_cons.mpr ⟨hkey, ih hevery hrest⟩

end Value

end FieldQuery

/-
Walking down a document by number.

At every node the children stand for the keys of an object in ascending order, so a list
of numbers chooses keys, one at a time, and the walk ends at the node of what these keys
lead to. `descend?_ofValue` says so in one equation, with the name and the path of the
node; nothing in it depends on what the keys are, so empty keys, keys with dots and keys
that spell the path of another node are walked through like any other.

Because it is an equation of options it says two things at once: a walk ends somewhere
exactly where the numbers choose keys, and the node there is the node of what they lead
to.  The induction is over the numbers; one step looks up a child, which is one entry of
the canonical object.
-/
import FieldQuery.Proofs.Value.Keys

namespace FieldQuery

namespace Value

/-- The keys that numbers choose.  Each number chooses one of the keys, in ascending order, of
the object that the keys before it lead to; a number that is too large chooses nothing. -/
def choose? (v : Value) : List Nat → Option (List String)
  | [] => some []
  | i :: rest =>
    v.keys[i]?.bind fun key =>
      (v.field? key).bind fun inner => (inner.choose? rest).map (key :: ·)

theorem choose?_cons_iff {v : Value} {i : Nat} {rest : List Nat} {keys : List String} :
    v.choose? (i :: rest) = some keys ↔
      ∃ key, v.keys[i]? = some key ∧ ∃ inner, v.field? key = some inner ∧
        ∃ later, inner.choose? rest = some later ∧ key :: later = keys := by
  rw [choose?, Option.bind_eq_some_iff]
  simp only [Option.bind_eq_some_iff, Option.map_eq_some_iff]

/-- Chosen keys lead to a value. -/
theorem exists_at?_of_choose? (numbers : List Nat) {v : Value} {keys : List String}
    (h : v.choose? numbers = some keys) : ∃ w, v.at? keys = some w := by
  induction numbers generalizing v keys with
  | nil =>
      obtain rfl := Option.some.inj h
      exact ⟨v, rfl⟩
  | cons i rest ih =>
      obtain ⟨key, -, inner, hfield, more, hmore, rfl⟩ := choose?_cons_iff.mp h
      obtain ⟨w, hw⟩ := ih hmore
      refine ⟨w, ?_⟩
      rw [at?_cons, hfield]
      exact hw

end Value

namespace Document

namespace Node

/-- Only nodes of objects are not leaves. -/
theorem isLeaf_ofValue (name path : String) (v : Value) :
    (ofValue name path v).isLeaf = true ↔ ∀ entries, v ≠ .object entries := by
  cases v <;> simp [ofValue, isLeaf]

theorem isLeaf_canonical (name path : String) (v : Value) :
    (ofValue name path v.canonical).isLeaf = true ↔ ∀ entries, v ≠ .object entries := by
  cases v <;> simp [Value.canonical, isLeaf_ofValue]

theorem getElem?_ofEntries (parent : String) (fields : Fields Value) (i : Nat) :
    (ofEntries parent fields)[i]? =
      fields[i]?.map fun entry => ofValue entry.1 (Path.child parent entry.1) entry.2 := by
  induction fields generalizing i with
  | nil => rfl
  | cons entry rest ih =>
      cases i with
      | zero => rfl
      | succ i =>
          rw [ofEntries, List.getElem?_cons_succ, List.getElem?_cons_succ]
          exact ih i

/-- The children of the node of a value stand for its keys in order. -/
theorem getElem?_children (name path : String) (v : Value) (i : Nat) :
    (ofValue name path v.canonical).children[i]? =
      v.keys[i]?.bind fun key =>
        (v.field? key).map fun inner => ofValue key (Path.child path key) inner.canonical := by
  cases v with
  | object entries =>
      show (ofEntries path (Fields.ofList (Value.canonicalEntries entries)))[i]? = _
      rw [getElem?_ofEntries, Value.getElem?_canonicalEntries, Option.map_bind]
      simp only [Function.comp_def, Option.map_map]
  | null | bool _ | integer _ | float _ | string _ | array _ => rfl

/-- The walk ends at the node of what the chosen keys lead to. -/
theorem descend?_ofValue (numbers : List Nat) (v : Value) (name path : String) :
    (ofValue name path v.canonical).descend? numbers =
      (v.choose? numbers).bind fun keys =>
        (v.at? keys).map fun w =>
          ofValue (keys.getLastD name) (keys.foldl Path.child path) w.canonical := by
  induction numbers generalizing v name path with
  | nil => rfl
  | cons i rest ih =>
      rw [descend?, getElem?_children, Value.choose?]
      cases v.keys[i]? with
      | none => rfl
      | some key =>
          rw [Option.bind_some, Option.bind_some]
          cases hfield : v.field? key with
          | none => rfl
          | some inner =>
              rw [Option.map_some, Option.bind_some, ih, Option.bind_some]
              cases inner.choose? rest with
              | none => rfl
              | some keys =>
                  rw [Option.map_some, Option.bind_some, Option.bind_some, Value.at?_cons, hfield,
                    Option.bind_some, List.getLastD_cons, List.foldl_cons]

end Node

/--
**A document gives its object back, as a whole and at every step down.**  Its root stands for
the object.  A walk by numbers reaches a node exactly if every number is in the range of the
keys of the object reached so far, and then the node has the last key as its name, stands for
what the keys lead to, and is a leaf exactly if that is not an object.
-/
theorem value_descend? (entries : List (String × Value)) :
    ∃ d, ofValue? (.object entries) = some d ∧
      d.root.value = (Value.object entries).canonical ∧
      ∀ numbers,
        ((d.root.descend? numbers).isSome ↔ ((Value.object entries).choose? numbers).isSome) ∧
        ∀ keys node, (Value.object entries).choose? numbers = some keys →
          d.root.descend? numbers = some node →
            ∃ w, (Value.object entries).at? keys = some w ∧
              node.name = keys.getLastD "" ∧ node.value = w.canonical ∧
              (node.isLeaf = true ↔ ∀ fields, w ≠ .object fields) := by
  obtain ⟨d, hd⟩ : ∃ d, ofValue? (.object entries) = some d := ⟨_, rfl⟩
  have hroot := root_eq hd
  refine ⟨d, hd, ?_, fun numbers => ?_⟩
  · rw [hroot, Node.value_ofValue]
  rw [hroot, Node.descend?_ofValue]
  cases hchosen : (Value.object entries).choose? numbers with
  | none => simp
  | some keys =>
      obtain ⟨w, hw⟩ := Value.exists_at?_of_choose? numbers hchosen
      rw [Option.bind_some, hw]
      refine ⟨by simp, fun keys' node hkeys hnode => ?_⟩
      obtain rfl := Option.some.inj hkeys
      obtain rfl := Option.some.inj hnode
      exact ⟨w, hw, Node.name_ofValue _ _ _, Node.value_ofValue _ _ _,
        Node.isLeaf_canonical _ _ w⟩

end Document

end FieldQuery

/-
Values in order.

A value is in order if every object that keys lead to lists its entries by ascending
key.  The canonical form of any value is.  In order an object is determined by its
look-ups, and a value by what its keys lead to, `eq_of_at?`; so two values that are
built in different ways are compared key by key.

Keys do not lead into arrays, so nothing is said of the objects inside one, and none of
what follows depends on their order.
-/
import FieldQuery.Proofs.Value.Keys

namespace FieldQuery

namespace Value

mutual

/-- Whether every object that keys lead to lists its entries by ascending key. -/
def Ordered : Value → Prop
  | .object fields => Fields.Ascending fields ∧ OrderedEntries fields
  | _ => True

/-- Whether the value of every entry is in order. -/
def OrderedEntries : List (String × Value) → Prop
  | [] => True
  | (_, v) :: rest => v.Ordered ∧ OrderedEntries rest

end

theorem orderedEntries_iff {entries : List (String × Value)} :
    OrderedEntries entries ↔ ∀ entry ∈ entries, entry.2.Ordered := by
  induction entries with
  | nil => simp [OrderedEntries]
  | cons entry rest ih => rw [OrderedEntries, ih, List.forall_mem_cons]

theorem ordered_object_iff {fields : List (String × Value)} :
    (Value.object fields).Ordered ↔
      Fields.Ascending fields ∧ ∀ entry ∈ fields, entry.2.Ordered := by
  rw [Ordered, orderedEntries_iff]

theorem ordered_empty : (Value.object []).Ordered := ⟨List.Pairwise.nil, trivial⟩

/-! ### Looking up keys

In ascending entries it does not matter from which end a key is looked up.  From here on
the difference between the first and the last entry of a key is gone.
-/

theorem field?_of_ascending {fields : Fields Value} (h : Fields.Ascending fields)
    (key : String) : (Value.object fields).field? key = fields.lookup key :=
  Fields.lookup_reverse h key

/-- The value at a key of a value in order is in order. -/
theorem Ordered.field? {v inner : Value} (h : v.Ordered) {key : String}
    (hinner : v.field? key = some inner) : inner.Ordered := by
  cases v with
  | object fields =>
      obtain ⟨hascending, hall⟩ := ordered_object_iff.mp h
      rw [field?_of_ascending hascending] at hinner
      exact hall (key, inner) (Fields.mem_of_lookup hinner)
  | null | bool _ | integer _ | float _ | string _ | array _ => simp [Value.field?] at hinner

theorem at?_singleton (v : Value) (key : String) : v.at? [key] = v.field? key := by
  cases h : v.field? key <;> simp [at?, h]

theorem at?_append (v : Value) (keys more : List String) :
    v.at? (keys ++ more) = (v.at? keys).bind fun inner => inner.at? more := by
  induction keys generalizing v with
  | nil => rfl
  | cons key rest ih =>
      rw [List.cons_append, at?_cons, at?_cons, Option.bind_assoc]
      exact congrArg (Option.bind _) (funext ih)

/-! ### Canonical forms

Going down a value and bringing it in order can be done one before the other, and a
canonical form is in order at every level.
-/

theorem field?_canonical (v : Value) (key : String) :
    v.canonical.field? key = (v.field? key).map canonical := by
  cases v with
  | object entries =>
      rw [canonical, field?_of_ascending (Fields.ascending_ofList _), lookup_canonicalEntries]
  | null | bool _ | integer _ | float _ | string _ | array _ => rfl

theorem at?_canonical (v : Value) (keys : List String) :
    v.canonical.at? keys = (v.at? keys).map canonical := by
  induction keys generalizing v with
  | nil => rfl
  | cons key rest ih =>
      rw [at?_cons, at?_cons, field?_canonical]
      cases v.field? key with
      | none => rfl
      | some inner => exact ih inner

mutual

theorem ordered_canonical : ∀ v : Value, v.canonical.Ordered
  | .object entries => by
      rw [canonical]
      refine ordered_object_iff.mpr ⟨Fields.ascending_ofList _, ?_⟩
      exact Fields.forall_mem_ofList (ordered_canonicalEntries entries)
  | .null | .bool _ | .integer _ | .float _ | .string _ | .array _ => by simp [canonical, Ordered]

theorem ordered_canonicalEntries : ∀ entries : List (String × Value),
    ∀ entry ∈ canonicalEntries entries, entry.2.Ordered
  | [] => by simp [canonicalEntries]
  | (key, v) :: rest => by
      rw [canonicalEntries, List.forall_mem_cons]
      exact ⟨ordered_canonical v, ordered_canonicalEntries rest⟩

end

/-! ### Values that agree at all keys

Two objects may stand at the same keys and differ below.  `Alike` leaves that open, so
that the comparison can go on there; it ends because a value inside an object is smaller
than it.
-/

/-- Two things that are found are the same, or both are objects. -/
def Alike (a b : Option Value) : Prop :=
  a = b ∨ (∃ fields, a = some (.object fields)) ∧ ∃ fields, b = some (.object fields)

/-- A value inside an object is smaller than it. -/
theorem sizeOf_lt_of_lookup {fields : Fields Value} {key : String} {inner : Value}
    (h : fields.lookup key = some inner) : sizeOf inner < sizeOf (Value.object fields) := by
  have hless := List.sizeOf_lt_of_mem (Fields.mem_of_lookup h)
  rw [Prod.mk.sizeOf_spec] at hless
  rw [object.sizeOf_spec]
  omega

/-- Values in order are equal if what any keys lead to is alike in both. -/
theorem eq_of_at? {v w : Value} (hv : v.Ordered) (hw : w.Ordered)
    (halike : ∀ keys, Alike (v.at? keys) (w.at? keys)) : v = w := by
  induction hsize : sizeOf v using Nat.strong_induction_on generalizing v w with
  | _ n ih =>
      rcases halike [] with heq | ⟨⟨fields, hfields⟩, others, hothers⟩
      · exact Option.some.inj heq
      obtain rfl := Option.some.inj hfields
      obtain rfl := Option.some.inj hothers
      obtain ⟨hascending, hall⟩ := ordered_object_iff.mp hv
      obtain ⟨hascending', hall'⟩ := ordered_object_iff.mp hw
      have hlookup : ∀ key, fields.lookup key = others.lookup key := by
        intro key
        have hone := halike [key]
        rw [at?_singleton, at?_singleton, field?_of_ascending hascending,
          field?_of_ascending hascending'] at hone
        rcases hone with heq | ⟨⟨inner, hinner⟩, inner', hinner'⟩
        · exact heq
        · -- two objects at one key agree below it, and the first is smaller
          have hbelow : ∀ keys,
              Alike ((Value.object inner).at? keys) ((Value.object inner').at? keys) := by
            intro keys
            have hkeys := halike (key :: keys)
            rwa [at?_cons, at?_cons, field?_of_ascending hascending,
              field?_of_ascending hascending', hinner, hinner'] at hkeys
          have hless := hsize ▸ sizeOf_lt_of_lookup hinner
          have hordered : (Value.object inner).Ordered := hall _ (Fields.mem_of_lookup hinner)
          have hordered' : (Value.object inner').Ordered := hall' _ (Fields.mem_of_lookup hinner')
          rw [hinner, hinner', ih _ hless hordered hordered' hbelow rfl]
      rw [Fields.eq_of_lookup hascending hascending' hlookup]

end Value

end FieldQuery

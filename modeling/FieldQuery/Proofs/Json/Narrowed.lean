/-
JSON values as documents and back.

A document value has no integers beyond 64 bits with sign, so a JSON integer that needs
all 64 bits without sign comes back as the float nearest to it.  `narrowed` says so
scalar by scalar, and `ofValue_ofJson` that nothing else changes on the way there and
back.  The query `.` hands the document on as it is, so what it gives on a JSON object
is the object narrowed, and the object itself exactly if no integer in it is that large:
`runJson_root`.

The hypotheses say what a JSON value is, not what the query needs.  Its integers have 64
bits, with or without sign, its floats are finite, and its objects list their entries by
ascending key; a value that has been read has all of this.
-/
import FieldQuery.Proofs.ListedPath
import FieldQuery.Proofs.Value.Reordered

namespace FieldQuery

namespace Json

/-- What comes back of a scalar: of an integer beyond 64 bits with sign the nearest float, and
anything else as it is. -/
def Scalar.narrowed : Scalar → Scalar
  | .integer n => if n < 0x8000000000000000 then .integer n else .float (Double.ofInt n)
  | s => s

/-- Whether a scalar is not an integer beyond 64 bits with sign. -/
def Scalar.Narrow : Scalar → Prop
  | .integer n => n < 0x8000000000000000
  | _ => True

mutual

/-- What comes back of a value, scalar by scalar. -/
def narrowed : Json → Json
  | .scalar s => .scalar s.narrowed
  | .array items => .array (narrowedItems items)
  | .object fields => .object (narrowedFields fields)

/-- What comes back of the items of an array. -/
def narrowedItems : List Json → List Json
  | [] => []
  | j :: rest => j.narrowed :: narrowedItems rest

/-- What comes back of the entries of an object. -/
def narrowedFields : List (String × Json) → List (String × Json)
  | [] => []
  | (key, j) :: rest => (key, j.narrowed) :: narrowedFields rest

end

mutual

/-- Whether no integer inside a value is beyond 64 bits with sign. -/
def Narrow : Json → Prop
  | .scalar s => s.Narrow
  | .array items => NarrowItems items
  | .object fields => NarrowFields fields

/-- Whether no integer inside the items of an array is. -/
def NarrowItems : List Json → Prop
  | [] => True
  | j :: rest => j.Narrow ∧ NarrowItems rest

/-- Whether no integer inside the values of the entries of an object is. -/
def NarrowFields : List (String × Json) → Prop
  | [] => True
  | (_, j) :: rest => j.Narrow ∧ NarrowFields rest

end

/-! ### What is changed

A float is never an integer, so a value comes back as it is only if no scalar in it was
changed.
-/

theorem Scalar.narrowed_eq_iff (s : Scalar) : s.narrowed = s ↔ s.Narrow := by
  cases s with
  | integer n =>
      rw [Scalar.narrowed, Scalar.Narrow]
      split <;> simp_all
  | null | bool _ | float _ | string _ => simp [Scalar.narrowed, Scalar.Narrow]

mutual

/-- A value comes back as it is exactly if it has no integer beyond 64 bits with sign. -/
theorem narrowed_eq_iff : ∀ j : Json, j.narrowed = j ↔ j.Narrow
  | .scalar s => by rw [narrowed, Json.scalar.injEq, s.narrowed_eq_iff, Narrow]
  | .array items => by rw [narrowed, Json.array.injEq, narrowedItems_eq_iff items, Narrow]
  | .object fields => by rw [narrowed, Json.object.injEq, narrowedFields_eq_iff fields, Narrow]

theorem narrowedItems_eq_iff : ∀ items, narrowedItems items = items ↔ NarrowItems items
  | [] => by simp [narrowedItems, NarrowItems]
  | j :: rest => by
      rw [narrowedItems, List.cons.injEq, narrowed_eq_iff j, narrowedItems_eq_iff rest,
        NarrowItems]

theorem narrowedFields_eq_iff : ∀ fields, narrowedFields fields = fields ↔ NarrowFields fields
  | [] => by simp [narrowedFields, NarrowFields]
  | (key, j) :: rest => by
      rw [narrowedFields, List.cons.injEq, Prod.mk.injEq, eq_self_iff_true, true_and,
        narrowed_eq_iff j, narrowedFields_eq_iff rest, NarrowFields]

end

/-! ### There and back

An object goes through the order of its keys twice, once in each direction.  It was in
order before, so neither of them moves an entry.
-/

theorem narrowedFields_eq_map (fields : List (String × Json)) :
    narrowedFields fields = fields.map (Prod.map id narrowed) := by
  induction fields with
  | nil => rfl
  | cons entry rest ih =>
      rw [narrowedFields, ih]
      rfl

/-- A scalar that a JSON value can hold comes back narrowed. -/
theorem ofValue_ofScalar {s : Scalar} (h : s.Fits) :
    ofValue (Value.ofScalar s) = .scalar s.narrowed := by
  cases s with
  | null | bool _ | string _ => rfl
  | float x =>
      have hx : x.isFinite = true := h
      rw [Value.ofScalar_float, ofValue, if_pos hx]
      rfl
  | integer n =>
      obtain ⟨hlow, hhigh⟩ : -0x8000000000000000 ≤ n ∧ n < 0x10000000000000000 := h
      rw [Value.ofScalar_integer, Scalar.narrowed]
      by_cases hn : n < 0x8000000000000000
      · have hfits : int64? n = some (Int64.ofInt n) := if_pos ⟨hlow, hn⟩
        rw [hfits, if_pos hn]
        exact congrArg (fun i => Json.scalar (.integer i)) (toInt_of_int64? hfits)
      · have hlarge : int64? n = none := if_neg fun hrange => hn hrange.2
        have hfinite := (Double.ofInt_spec (n := n) (by omega)).1
        rw [hlarge, if_neg hn]
        show Json.scalar (if _ then _ else _) = _
        rw [if_pos hfinite]

mutual

/-- **What a JSON value comes back as** when it has been a document value. -/
theorem ofValue_ofJson : ∀ j : Json, j.Fits → j.Ordered → ofValue (Value.ofJson j) = j.narrowed
  | .scalar _, hfits, _ => ofValue_ofScalar hfits
  | .array items, hfits, horder => congrArg Json.array (ofItems_ofItems items hfits horder)
  | .object fields, hfits, ⟨hascending, horder⟩ => by
      have hkept : Fields.Ascending (narrowedFields fields) := by
        rw [narrowedFields_eq_map]
        exact List.pairwise_map.mpr hascending
      rw [Value.ofJson, ofValue, ofEntries_ofFields fields hfits horder,
        Fields.ofList_of_ascending hkept, narrowed]

theorem ofItems_ofItems : ∀ items, FitsItems items → OrderedItems items →
    ofItems (Value.ofItems items) = narrowedItems items
  | [], _, _ => rfl
  | j :: rest, hfits, horder => by
      rw [Value.ofItems, ofItems, ofValue_ofJson j hfits.1 horder.1,
        ofItems_ofItems rest hfits.2 horder.2, narrowedItems]

theorem ofEntries_ofFields : ∀ fields, FitsFields fields → OrderedFields fields →
    ofEntries (Value.ofFields fields) = narrowedFields fields
  | [], _, _ => rfl
  | (key, j) :: rest, hfits, horder => by
      rw [Value.ofFields, ofEntries, ofValue_ofJson j hfits.1 horder.1,
        ofEntries_ofFields rest hfits.2 horder.2, narrowedFields]

end

end Json

namespace Query

/-- The query for the root gives the document as it is. -/
theorem run_root (entries : List (String × Value)) (merge : Merge) :
    run merge "." (.object entries) = .ok (.selected (Value.object entries).canonical) :=
  run_path (parse_of_spellable rfl Path.spellable_root) rfl (Document.get?_root rfl) merge

theorem runJson_root_eq {fields : List (String × Json)} (hfits : (Json.object fields).Fits)
    (horder : (Json.object fields).Ordered) (merge : Merge) :
    runJson merge "." (.object fields) = .ok (some (Json.object fields).narrowed) := by
  have hback := Json.ofValue_ofJson _ hfits horder
  rw [runJson, Value.ofJson, run_root]
  dsimp only
  rw [Value.ofValue_canonical, ← Value.ofJson, hback]

/--
**Selecting everything alters nothing but the largest integers.**  On a JSON object that holds
integers of 64 bits, with or without sign, and finite floats, however its arrays and objects
nest and whatever its keys, the query `.` gives the object with every integer beyond 64 bits
with sign replaced by the float nearest to it.  So it gives the object itself, every number as it
is held, exactly if there is no such integer in it.
-/
theorem runJson_root {fields : List (String × Json)} (hfits : (Json.object fields).Fits)
    (horder : (Json.object fields).Ordered) (merge : Merge) :
    runJson merge "." (.object fields) = .ok (some (Json.object fields).narrowed) ∧
      (runJson merge "." (.object fields) = .ok (some (.object fields)) ↔
        (Json.object fields).Narrow) := by
  rw [runJson_root_eq hfits horder merge]
  refine ⟨rfl, ?_⟩
  rw [Except.ok.injEq, Option.some.injEq, Json.narrowed_eq_iff]

/-- Negative zero, the least and the greatest integer with sign, and empty containers come back;
the next integer is a float afterwards. -/
theorem runJson_root_nested :
    runJson .deep "." (.object [("", .array [.scalar (.float ⟨true, 0, by decide⟩),
        .object [("a.b", .scalar (.integer 0x7fffffffffffffff))], .array []]),
        (".", .scalar (.integer (-0x8000000000000000)))]) =
      .ok (some (.object [("", .array [.scalar (.float ⟨true, 0, by decide⟩),
        .object [("a.b", .scalar (.integer 0x7fffffffffffffff))], .array []]),
        (".", .scalar (.integer (-0x8000000000000000)))])) ∧
    runJson .overwrite "." (.object [("a", .scalar (.integer 0x8000000000000000))]) =
      .ok (some (.object [("a", .scalar (.float ⟨false, 0x43e0000000000000, by decide⟩))])) := by
  refine ⟨(runJson_root ?_ ?_ .deep).2.mpr ?_, (runJson_root ?_ ?_ .overwrite).1.trans ?_⟩
  · simp [Json.Fits, Json.FitsFields, Json.FitsItems, Json.Scalar.Fits, Double.isFinite,
      Double.infinityMagnitude]
  · have hless : "" < "." := by
      rw [String.lt_iff]
      decide
    have hinner : (Json.object [("a.b", .scalar (.integer 0x7fffffffffffffff))]).Ordered :=
      ⟨List.pairwise_singleton _ _, trivial, trivial⟩
    exact ⟨List.pairwise_pair.mpr hless, ⟨trivial, hinner, trivial, trivial⟩, trivial, trivial⟩
  · simp [Json.Narrow, Json.NarrowFields, Json.NarrowItems, Json.Scalar.Narrow]
  · simp [Json.Fits, Json.FitsFields, Json.Scalar.Fits]
  · simp [Json.Ordered, Json.OrderedFields, Fields.Ascending]
  · have hfloat : Double.ofInt 0x8000000000000000 = ⟨false, 0x43e0000000000000, by decide⟩ := by
      decide +kernel
    simp [Json.narrowed, Json.narrowedFields, Json.Scalar.narrowed, hfloat]

/-- The greatest integer of 64 bits without sign does not come back. -/
theorem runJson_unsigned :
    (Json.object [("a", .scalar (.integer 0xffffffffffffffff))]).Fits ∧
    (Json.object [("a", .scalar (.integer 0xffffffffffffffff))]).Ordered ∧
    runJson .overwrite "." (.object [("a", .scalar (.integer 0xffffffffffffffff))]) ≠
      .ok (some (.object [("a", .scalar (.integer 0xffffffffffffffff))])) := by
  have hfits : (Json.object [("a", .scalar (.integer 0xffffffffffffffff))]).Fits := by
    simp [Json.Fits, Json.FitsFields, Json.Scalar.Fits]
  have horder : (Json.object [("a", .scalar (.integer 0xffffffffffffffff))]).Ordered := by
    simp [Json.Ordered, Json.OrderedFields, Fields.Ascending]
  refine ⟨hfits, horder, ?_⟩
  rw [runJson_root_eq hfits horder, ne_eq, Except.ok.injEq, Option.some.injEq,
    Json.narrowed_eq_iff]
  simp [Json.Narrow, Json.NarrowFields, Json.Scalar.Narrow]

end Query

end FieldQuery

/-
Values that are read back from their text.

The text of a value is read as its tokens, the tokens rebuild the value, and the JSON
value of a document value stands for its canonical form.  Only floats come back as
something else: a whole number that is held as a float is written without a fraction and
read as an integer, and one that is not finite is written as null.

For values without floats this is the whole story, `parse?_text`.  It holds for every
string, every key and every integer, because what is written of these is read as itself;
the one bound is that on the depth, which the reader imposes and the writer does not.

Everything about the JSON value of a document value is shown entry by entry first and
then for the entries in order, since `Json.ofValue` brings them in order last.
-/
import FieldQuery.Json.Value
import FieldQuery.Proofs.Fields
import FieldQuery.Proofs.Json.Rebuild
import FieldQuery.Proofs.Value.Ordered

namespace FieldQuery

namespace Json

/-! ### The text of a JSON value

Writing and reading meet in the tokens: the text has the tokens of the value that it is
read as, and these are derived.
-/

/-- **What the text of a value is read as**, in any layout that adds nothing but blanks, if none
of it is refused. -/
theorem parse?_text_of_fits {layout : Layout} (hblank : layout.Blank) {j : Json} (hfits : j.Fits)
    (horder : j.Ordered) (hdepth : j.depth ≤ maxDepth) :
    parse? (j.text layout) = if j.legible then some j.reread else none := by
  have htokens := tokens?_render hblank hfits 0
  have hderives : Derives maxDepth (tokens j.reread) j.reread :=
    derives_tokens horder.reread (by rwa [depth_reread])
  rw [parse?, text, String.toList_ofList, htokens]
  split
  · exact value?_of_run_iff.mpr hderives
  · rfl

/-- A value that is written as nothing but itself. -/
structure Exact (j : Json) : Prop where
  fits : j.Fits
  legible : j.legible = true
  reread_eq : j.reread = j

theorem parse?_text_of_exact {layout : Layout} (hblank : layout.Blank) {j : Json} (hexact : j.Exact)
    (horder : j.Ordered) (hdepth : j.depth ≤ maxDepth) :
    parse? (j.text layout) = some j := by
  rw [parse?_text_of_fits hblank hexact.fits horder hdepth, if_pos hexact.legible,
    hexact.reread_eq]

theorem legibleFields_iff {fields : List (String × Json)} :
    legibleFields fields = true ↔ ∀ entry ∈ fields, entry.2.legible = true := by
  induction fields with
  | nil => simp [legibleFields]
  | cons entry rest ih => rw [legibleFields, Bool.and_eq_true, ih, List.forall_mem_cons]

theorem fitsFields_iff {fields : List (String × Json)} :
    FitsFields fields ↔ ∀ entry ∈ fields, entry.2.Fits := by
  induction fields with
  | nil => simp [FitsFields]
  | cons entry rest ih => rw [FitsFields, ih, List.forall_mem_cons]

theorem orderedFields_iff {fields : List (String × Json)} :
    OrderedFields fields ↔ ∀ entry ∈ fields, entry.2.Ordered := by
  induction fields with
  | nil => simp [OrderedFields]
  | cons entry rest ih => rw [OrderedFields, ih, List.forall_mem_cons]

theorem depthFields_le_iff {fields : List (String × Json)} {n : Nat} :
    depthFields fields ≤ n ↔ ∀ entry ∈ fields, entry.2.depth ≤ n := by
  induction fields with
  | nil => simp [depthFields]
  | cons entry rest ih => rw [depthFields, Nat.max_le, ih, List.forall_mem_cons]

end Json

namespace Value

/-! ### The JSON value of a document value

What a JSON value has to be for its text to be read is that its numbers fit, that its
entries are in order and that it is not too deep.  The first two hold of every JSON
value that is made from a document value, and the depth is no greater.
-/

mutual

/-- Whether a value holds no float at any depth. -/
def FloatFree : Value → Prop
  | .float _ => False
  | .array items => FloatFreeItems items
  | .object entries => FloatFreeEntries entries
  | _ => True

/-- Whether the items of an array hold no float. -/
def FloatFreeItems : List Value → Prop
  | [] => True
  | v :: rest => v.FloatFree ∧ FloatFreeItems rest

/-- Whether the values of the entries of an object hold no float. -/
def FloatFreeEntries : List (String × Value) → Prop
  | [] => True
  | (_, v) :: rest => v.FloatFree ∧ FloatFreeEntries rest

end

mutual

/-- Whether the digits of every float in a value make the float again. -/
def Stable : Value → Prop
  | .float x => x.Stable
  | .array items => StableItems items
  | .object entries => StableEntries entries
  | _ => True

/-- Whether the digits of every float in the items of an array do. -/
def StableItems : List Value → Prop
  | [] => True
  | v :: rest => v.Stable ∧ StableItems rest

/-- Whether the digits of every float in the values of the entries of an object do. -/
def StableEntries : List (String × Value) → Prop
  | [] => True
  | (_, v) :: rest => v.Stable ∧ StableEntries rest

end

mutual

/-- Without floats there is nothing to ask for. -/
theorem FloatFree.stable : ∀ {v : Value}, v.FloatFree → v.Stable
  | .null, _ | .bool _, _ | .integer _, _ | .string _, _ => trivial
  | .array _, h => FloatFreeItems.stable h
  | .object _, h => FloatFreeEntries.stable h

theorem FloatFreeItems.stable : ∀ {items}, FloatFreeItems items → StableItems items
  | [], _ => trivial
  | _ :: _, h => ⟨h.1.stable, FloatFreeItems.stable h.2⟩

theorem FloatFreeEntries.stable : ∀ {entries}, FloatFreeEntries entries → StableEntries entries
  | [], _ => trivial
  | (_, _) :: _, h => ⟨h.1.stable, FloatFreeEntries.stable h.2⟩

end

mutual

/-- How many arrays and objects stand inside one another at most. -/
def depth : Value → Nat
  | .array items => depthItems items + 1
  | .object entries => depthEntries entries + 1
  | _ => 0

/-- The greatest depth of the items of an array. -/
def depthItems : List Value → Nat
  | [] => 0
  | v :: rest => max v.depth (depthItems rest)

/-- The greatest depth of the values of the entries of an object. -/
def depthEntries : List (String × Value) → Nat
  | [] => 0
  | (_, v) :: rest => max v.depth (depthEntries rest)

end

mutual

/-- The numbers of a document value fit, those that are not finite being written as null. -/
theorem fits_ofValue : ∀ v : Value, (Json.ofValue v).Fits
  | .null | .bool _ | .string _ => trivial
  | .integer n => by
      have hlow := n.le_toInt
      have hhigh := n.toInt_lt
      show _ ∧ _
      omega
  | .float x => by
      rw [Json.ofValue]
      split
      · rename_i hx
        exact hx
      · exact trivial
  | .array items => fits_ofItems items
  | .object entries => by
      rw [Json.ofValue, Json.Fits, Json.fitsFields_iff]
      exact Fields.forall_mem_ofList (fits_ofEntries entries)

theorem fits_ofItems : ∀ items, Json.FitsItems (Json.ofItems items)
  | [] => trivial
  | v :: rest => ⟨fits_ofValue v, fits_ofItems rest⟩

theorem fits_ofEntries : ∀ entries, ∀ entry ∈ Json.ofEntries entries, entry.2.Fits
  | [] => by simp [Json.ofEntries]
  | (key, v) :: rest => by
      rw [Json.ofEntries, List.forall_mem_cons]
      exact ⟨fits_ofValue v, fits_ofEntries rest⟩

end

mutual

/-- Without floats nothing is written that could be read as something else. -/
theorem reread_ofValue : ∀ v : Value, v.FloatFree → (Json.ofValue v).reread = Json.ofValue v
  | .null, _ | .bool _, _ | .string _, _ | .integer _, _ => rfl
  | .array items, h => congrArg Json.array (reread_ofItems items h)
  | .object entries, h => by
      rw [Json.ofValue, Json.reread, Json.rereadFields_eq_map, Fields.map_ofList,
        ← Json.rereadFields_eq_map, reread_ofEntries entries h]

theorem reread_ofItems : ∀ items, FloatFreeItems items →
    Json.rereadItems (Json.ofItems items) = Json.ofItems items
  | [], _ => rfl
  | v :: rest, h => by
      rw [Json.ofItems, Json.rereadItems, reread_ofValue v h.1, reread_ofItems rest h.2]

theorem reread_ofEntries : ∀ entries, FloatFreeEntries entries →
    Json.rereadFields (Json.ofEntries entries) = Json.ofEntries entries
  | [], _ => rfl
  | (key, v) :: rest, h => by
      rw [Json.ofEntries, Json.rereadFields, reread_ofValue v h.1, reread_ofEntries rest h.2]

end

theorem legible_float {x : Double} (h : x.Stable) : (Json.Scalar.float x).legible = true := by
  have hreading : x.reading? = some x := h
  rw [Json.Scalar.legible, Json.Scalar.reread?, hreading]
  split
  · rfl
  · split <;> rfl

mutual

/-- No part of the text of a stable value is refused. -/
theorem legible_ofValue : ∀ v : Value, v.Stable → (Json.ofValue v).legible = true
  | .null, _ | .bool _, _ | .string _, _ | .integer _, _ => rfl
  | .float x, h => by
      rw [Json.ofValue, if_pos (Json.isFinite_of_stable h)]
      exact legible_float h
  | .array items, h => legible_ofItems items h
  | .object entries, h => by
      rw [Json.ofValue, Json.legible, Json.legibleFields_iff]
      exact Fields.forall_mem_ofList (P := (Json.legible · = true)) (legible_ofEntries entries h)

theorem legible_ofItems : ∀ items, StableItems items →
    Json.legibleItems (Json.ofItems items) = true
  | [], _ => rfl
  | v :: rest, h => by
      rw [Json.ofItems, Json.legibleItems, legible_ofValue v h.1, legible_ofItems rest h.2]
      rfl

theorem legible_ofEntries : ∀ entries, StableEntries entries →
    ∀ entry ∈ Json.ofEntries entries, entry.2.legible = true
  | [], _ => by simp [Json.ofEntries]
  | (key, v) :: rest, h => by
      rw [Json.ofEntries, List.forall_mem_cons]
      exact ⟨legible_ofValue v h.1, legible_ofEntries rest h.2⟩

end

theorem exact_ofValue (v : Value) (h : v.FloatFree) : (Json.ofValue v).Exact :=
  ⟨fits_ofValue v, legible_ofValue v h.stable, reread_ofValue v h⟩

mutual

theorem ordered_ofValue : ∀ v : Value, (Json.ofValue v).Ordered
  | .null | .bool _ | .integer _ | .float _ | .string _ => trivial
  | .array items => ordered_ofItems items
  | .object entries => by
      rw [Json.ofValue, Json.Ordered, Json.orderedFields_iff]
      exact ⟨Fields.ascending_ofList _, Fields.forall_mem_ofList (ordered_ofEntries entries)⟩

theorem ordered_ofItems : ∀ items, Json.OrderedItems (Json.ofItems items)
  | [] => trivial
  | v :: rest => ⟨ordered_ofValue v, ordered_ofItems rest⟩

theorem ordered_ofEntries : ∀ entries, ∀ entry ∈ Json.ofEntries entries, entry.2.Ordered
  | [] => by simp [Json.ofEntries]
  | (key, v) :: rest => by
      rw [Json.ofEntries, List.forall_mem_cons]
      exact ⟨ordered_ofValue v, ordered_ofEntries rest⟩

end

mutual

theorem depth_ofValue_le : ∀ v : Value, (Json.ofValue v).depth ≤ v.depth
  | .null | .bool _ | .integer _ | .float _ | .string _ => Nat.le_refl 0
  | .array items => Nat.succ_le_succ (depth_ofItems_le items)
  | .object entries => by
      refine Nat.succ_le_succ (Json.depthFields_le_iff.mpr ?_)
      exact Fields.forall_mem_ofList (P := (Json.depth · ≤ _)) (depth_ofEntries_le entries)

theorem depth_ofItems_le : ∀ items, Json.depthItems (Json.ofItems items) ≤ depthItems items
  | [] => Nat.le_refl 0
  | v :: rest => by
      have hv := depth_ofValue_le v
      have hrest := depth_ofItems_le rest
      rw [Json.ofItems, Json.depthItems, depthItems]
      omega

theorem depth_ofEntries_le : ∀ entries, ∀ entry ∈ Json.ofEntries entries,
    entry.2.depth ≤ depthEntries entries
  | [] => by simp [Json.ofEntries]
  | (key, v) :: rest => by
      rw [Json.ofEntries, depthEntries, List.forall_mem_cons]
      refine ⟨Nat.le_trans (depth_ofValue_le v) (Nat.le_max_left _ _), fun entry hentry => ?_⟩
      exact Nat.le_trans (depth_ofEntries_le rest entry hentry) (Nat.le_max_right _ _)

end

theorem ofFields_eq_map (fields : List (String × Json)) :
    ofFields fields = fields.map (Prod.map id ofJson) := by
  induction fields with
  | nil => rfl
  | cons entry rest ih =>
      rw [ofFields, ih]
      rfl

mutual

/-- Without floats the JSON value stands for the same document value. -/
theorem ofJson_ofValue : ∀ v : Value, v.FloatFree → ofJson (Json.ofValue v) = v.canonical
  | .null, _ | .bool _, _ | .string _, _ => rfl
  | .integer n, _ => ofScalar_toInt n
  | .array items, h => congrArg Value.array (ofItems_ofItems items h)
  | .object entries, h => by
      rw [Json.ofValue, ofJson, ofFields_eq_map, Fields.map_ofList, ← ofFields_eq_map,
        ofFields_ofEntries entries h]
      rfl

theorem ofItems_ofItems : ∀ items, FloatFreeItems items →
    ofItems (Json.ofItems items) = canonicalItems items
  | [], _ => rfl
  | v :: rest, h => by
      rw [Json.ofItems, ofItems, ofJson_ofValue v h.1, ofItems_ofItems rest h.2]
      rfl

theorem ofFields_ofEntries : ∀ entries, FloatFreeEntries entries →
    ofFields (Json.ofEntries entries) = canonicalEntries entries
  | [], _ => rfl
  | (key, v) :: rest, h => by
      rw [Json.ofEntries, ofFields, ofJson_ofValue v h.1, ofFields_ofEntries rest h.2]
      rfl

end

/-! ### The text of a document value -/

variable {v : Value}

/--
**What is printed is read back.**  The compact and the pretty text of a value that holds no
float, and at most 127 arrays and objects inside one another, are read as this value, whatever
its strings, keys and integers; the entries of its objects come back in ascending order.
-/
theorem parse?_text (hfloat : v.FloatFree) (hdepth : v.depth ≤ 127) :
    parse? (v.text .compact) = some v.canonical ∧ parse? (v.text .pretty) = some v.canonical := by
  have hread : ∀ {layout : Json.Layout}, layout.Blank →
      parse? (v.text layout) = some v.canonical := by
    intro layout hblank
    have hjson := Json.parse?_text_of_exact hblank (exact_ofValue v hfloat) (ordered_ofValue v)
      (Nat.le_trans (depth_ofValue_le v) hdepth)
    rw [parse?, text, hjson, Option.map_some, ofJson_ofValue v hfloat]
  exact ⟨hread Json.Layout.blank_compact, hread Json.Layout.blank_pretty⟩

/-- Escaped text, control characters and the least and the greatest integer are read back. -/
theorem parse?_text_escaped :
    let v := Value.object [("\"\\\n", .array [.integer Int64.minValue, .integer Int64.maxValue]),
      ("", .object [("\x00\x7f\x9f", .string "\u2028é")])]
    parse? (v.text .compact) = some v.canonical ∧ parse? (v.text .pretty) = some v.canonical :=
  parse?_text (by simp [FloatFree, FloatFreeItems, FloatFreeEntries]) (by decide)

end Value

end FieldQuery

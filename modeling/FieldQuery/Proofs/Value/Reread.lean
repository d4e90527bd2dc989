/-
Values that are written and read again.

A value comes back from its text in canonical form, and with every float as what its
text stands for: a whole number of 64 bits as an integer, a number that is not finite as
null, and any other as the float that its digits make.  Of all values this is the same
function, `reread`, so it does not matter whether a value is read back as a whole or
part by part; the keys of its objects and the places of its items stay.

The text is refused as a whole if the digits of one of its floats make a number that is
too large, and then there is nothing to be read back: `parse?_text_eq_reread`.  Reading
back does not change the text of a value whose floats are stable, `text_reread`.  It can
change the text of others, because their digits make a float with other digits.

Not proved here: which floats are stable.  The digits of a float determine it, but the
reader rounds in the middle of its work, so a float can come back as its neighbour.
Whether one does is decided by computing it.
-/
import FieldQuery.Proofs.Json.Read
import FieldQuery.Proofs.Value.Reordered

namespace FieldQuery

namespace Value

/-! ### What a value comes back as

Reading back and bringing objects in order do not get into each other's way: the one
changes floats, the other moves entries.
-/

/-- What the text of a float is read as. -/
def rereadFloat (x : Double) : Value :=
  match x.reread? with
  | some i => .integer i
  | none => if x.isFinite then .float (x.reading?.getD x) else .null

theorem rereadFloat_eq (x : Double) :
    rereadFloat x = .null ∨ (∃ i, rereadFloat x = .integer i) ∨ ∃ y, rereadFloat x = .float y := by
  unfold rereadFloat
  split
  · exact .inr (.inl ⟨_, rfl⟩)
  · split
    · exact .inr (.inr ⟨_, rfl⟩)
    · exact .inl rfl

mutual

/-- What the text of a value is read as, but for the order of its entries. -/
def reread : Value → Value
  | .float x => rereadFloat x
  | .array items => .array (rereadItems items)
  | .object entries => .object (rereadEntries entries)
  | v => v

/-- What the texts of the items of an array are read as. -/
def rereadItems : List Value → List Value
  | [] => []
  | v :: rest => v.reread :: rereadItems rest

/-- What the texts of the values of the entries of an object are read as. -/
def rereadEntries : List (String × Value) → List (String × Value)
  | [] => []
  | (key, v) :: rest => (key, v.reread) :: rereadEntries rest

end

theorem rereadEntries_eq_map (entries : List (String × Value)) :
    rereadEntries entries = entries.map (Prod.map id reread) := by
  induction entries with
  | nil => rfl
  | cons entry rest ih =>
      rw [rereadEntries, ih]
      rfl

theorem canonical_rereadFloat (x : Double) : (rereadFloat x).canonical = rereadFloat x := by
  rcases rereadFloat_eq x with h | ⟨i, h⟩ | ⟨y, h⟩ <;> rw [h] <;> rfl

mutual

/-- Reading back and bringing in order can be done one before the other. -/
theorem canonical_reread : ∀ v : Value, v.reread.canonical = v.canonical.reread
  | .null | .bool _ | .integer _ | .string _ => rfl
  | .float x => canonical_rereadFloat x
  | .array items => congrArg Value.array (canonicalItems_rereadItems items)
  | .object entries => by
      rw [reread, canonical, canonical, reread, rereadEntries_eq_map (Fields.ofList _),
        Fields.map_ofList, ← rereadEntries_eq_map, canonicalEntries_rereadEntries entries]

theorem canonicalItems_rereadItems : ∀ items,
    canonicalItems (rereadItems items) = rereadItems (canonicalItems items)
  | [] => rfl
  | v :: rest => by
      rw [rereadItems, canonicalItems, canonical_reread v, canonicalItems_rereadItems rest]
      rfl

theorem canonicalEntries_rereadEntries : ∀ entries,
    canonicalEntries (rereadEntries entries) = rereadEntries (canonicalEntries entries)
  | [] => rfl
  | (key, v) :: rest => by
      rw [rereadEntries, canonicalEntries, canonical_reread v, canonicalEntries_rereadEntries rest]
      rfl

end

mutual

theorem canonical_canonical : ∀ v : Value, v.canonical.canonical = v.canonical
  | .null | .bool _ | .integer _ | .float _ | .string _ => rfl
  | .array items => congrArg Value.array (canonicalItems_canonicalItems items)
  | .object entries => by
      rw [canonical, canonical, canonicalEntries_eq_map (Fields.ofList _), Fields.map_ofList,
        ← canonicalEntries_eq_map, canonicalEntries_canonicalEntries entries,
        Fields.ofList_of_ascending (Fields.ascending_ofList _)]

theorem canonicalItems_canonicalItems : ∀ items,
    canonicalItems (canonicalItems items) = canonicalItems items
  | [] => rfl
  | v :: rest => by
      rw [canonicalItems, canonicalItems, canonical_canonical v, canonicalItems_canonicalItems rest]

theorem canonicalEntries_canonicalEntries : ∀ entries,
    canonicalEntries (canonicalEntries entries) = canonicalEntries entries
  | [] => rfl
  | (key, v) :: rest => by
      rw [canonicalEntries, canonicalEntries, canonical_canonical v,
        canonicalEntries_canonicalEntries rest]

end

theorem stableEntries_iff {entries : List (String × Value)} :
    StableEntries entries ↔ ∀ entry ∈ entries, entry.2.Stable := by
  induction entries with
  | nil => simp [StableEntries]
  | cons entry rest ih => rw [StableEntries, ih, List.forall_mem_cons]

mutual

/-- Bringing in order leaves the floats as they are. -/
theorem stable_canonical : ∀ v : Value, v.Stable → v.canonical.Stable
  | .null, h | .bool _, h | .integer _, h | .float _, h | .string _, h => h
  | .array items, h => stable_canonicalItems items h
  | .object entries, h =>
      stableEntries_iff.mpr (Fields.forall_mem_ofList (P := Stable)
        (stableEntries_iff.mp (stable_canonicalEntries entries h)))

theorem stable_canonicalItems : ∀ items, StableItems items → StableItems (canonicalItems items)
  | [], _ => trivial
  | v :: rest, h => ⟨stable_canonical v h.1, stable_canonicalItems rest h.2⟩

theorem stable_canonicalEntries : ∀ entries,
    StableEntries entries → StableEntries (canonicalEntries entries)
  | [], _ => trivial
  | (_, v) :: rest, h => ⟨stable_canonical v h.1, stable_canonicalEntries rest h.2⟩

end

/-! ### Reading a text

A float is written with its digits, and the reader decides afresh between an integer and
a float. For a whole number it takes the integer if 64 bits hold it, and it is here that
negative zero remains a float.
-/

theorem rereadFloat_of_none {x : Double} (hx : x.isFinite = true) (h : x.reread? = none) :
    rereadFloat x = .float (x.reading?.getD x) := by
  rw [rereadFloat, h]
  exact if_pos hx

/-- A stable float that is not read back as an integer is read back as itself. -/
theorem rereadFloat_of_stable {x : Double} (hx : x.Stable) (h : x.reread? = none) :
    rereadFloat x = .float x := by
  have hreading : x.reading? = some x := hx
  rw [rereadFloat_of_none (Json.isFinite_of_stable hx) h, hreading]
  rfl

theorem rereadFloat_of_not_isFinite {x : Double} (hx : ¬x.isFinite = true) :
    rereadFloat x = .null := by
  rw [rereadFloat, Double.reread?, if_neg fun h => hx h.1]
  exact if_neg hx

theorem scalar_reread_of_none {x : Double} (h : x.whole? = none) :
    Json.Scalar.reread (.float x) = .float (x.reading?.getD x) := by
  rw [Json.Scalar.reread, Json.Scalar.reread?, h]
  cases x.reading? <;> rfl

theorem scalar_reread_of_whole {x : Double} {n : Int} (h : x.whole? = some n) :
    Json.Scalar.reread (.float x) =
      if Json.FitsInteger x.negative n.natAbs then .integer n
      else .float (x.reading?.getD x) := by
  rw [Json.Scalar.reread, Json.Scalar.reread?, h]
  dsimp only
  split
  · rfl
  · cases x.reading? <;> rfl

/-- The whole number of a float is held as an integer if it fits into 64 bits and is not negative
zero. -/
theorem fitsInteger_of_whole?_iff {x : Double} {n : Int} (h : x.whole? = some n) :
    Json.FitsInteger x.negative n.natAbs ↔
      ¬(x.negative = true ∧ n = 0) ∧ -0x8000000000000000 ≤ n ∧ n < 0x10000000000000000 := by
  obtain ⟨-, -, hsign⟩ := Double.eq_of_whole? h
  cases hnegative : x.negative with
  | true =>
      rw [hnegative, if_pos rfl] at hsign
      show 0 < n.natAbs ∧ n.natAbs ≤ 0x8000000000000000 ↔ _
      rw [eq_self, true_and]
      omega
  | false =>
      rw [hnegative, if_neg Bool.false_ne_true] at hsign
      show n.natAbs < 0x10000000000000000 ↔ _
      rw [Bool.false_eq_true, false_and, not_false_eq_true, true_and]
      omega

/-- The document value of what the text of a finite float is read as. -/
theorem ofScalar_reread {x : Double} (hx : x.isFinite = true) :
    ofScalar (Json.Scalar.reread (.float x)) = rereadFloat x := by
  cases hwhole : x.whole? with
  | none =>
      rw [rereadFloat_of_none hx (by simp [Double.reread?, hwhole]), scalar_reread_of_none hwhole]
      rfl
  | some n =>
      have hreread := Double.reread?_of_whole? hx hwhole
      rw [scalar_reread_of_whole hwhole]
      split
      · rename_i hfits
        obtain ⟨hsigned, hlow, hhigh⟩ := (fitsInteger_of_whole?_iff hwhole).mp hfits
        rw [if_neg hsigned] at hreread
        rw [ofScalar_integer]
        cases hint : int64? n with
        | some i => rw [rereadFloat, hreread, hint]
        | none =>
            -- an integer without sign, to which it is rounded
            have hstable := Json.stable_of_whole? hx hwhole (by omega)
            rw [rereadFloat_of_stable hstable (hreread.trans hint)]
            exact congrArg Value.float
              (Double.ofInt_of_whole? hx hwhole fun hnegative hn => hsigned ⟨hnegative, hn⟩)
      · -- negative zero, or too large for an integer of 64 bits
        rename_i hfloat
        rw [fitsInteger_of_whole?_iff hwhole] at hfloat
        have hnone : x.reread? = none := by
          rw [hreread]
          split
          · rfl
          · rename_i hsigned
            have hrange := not_and.mp hfloat hsigned
            exact if_neg (by omega)
        rw [rereadFloat_of_none hx hnone]
        rfl

mutual

/-- What the JSON value of a value is read as stands for what the value is read as. -/
theorem ofJson_reread : ∀ v : Value, ofJson (Json.ofValue v).reread = v.canonical.reread
  | .null | .bool _ | .string _ => rfl
  | .integer n => ofScalar_toInt n
  | .float x => by
      show ofScalar (Json.Scalar.reread (if x.isFinite then .float x else .null)) = rereadFloat x
      by_cases hx : x.isFinite = true
      · rw [if_pos hx, ofScalar_reread hx]
      · rw [if_neg hx, rereadFloat_of_not_isFinite hx]
        rfl
  | .array items => congrArg Value.array (ofItems_rereadItems items)
  | .object entries => by
      rw [Json.ofValue, Json.reread, ofJson, canonical, reread, Json.rereadFields_eq_map,
        Fields.map_ofList, ← Json.rereadFields_eq_map, ofFields_eq_map, Fields.map_ofList,
        ← ofFields_eq_map, ofFields_rereadFields entries, rereadEntries_eq_map (Fields.ofList _),
        Fields.map_ofList, ← rereadEntries_eq_map]

theorem ofItems_rereadItems : ∀ items,
    ofItems (Json.rereadItems (Json.ofItems items)) = rereadItems (canonicalItems items)
  | [] => rfl
  | v :: rest => by
      rw [Json.ofItems, Json.rereadItems, ofItems, ofJson_reread v, ofItems_rereadItems rest]
      rfl

theorem ofFields_rereadFields : ∀ entries,
    ofFields (Json.rereadFields (Json.ofEntries entries)) = rereadEntries (canonicalEntries entries)
  | [] => rfl
  | (key, v) :: rest => by
      rw [Json.ofEntries, Json.rereadFields, ofFields, ofJson_reread v, ofFields_rereadFields rest]
      rfl

end

variable {v : Value}

/-- Whether no part of the text of a value is refused: no digits of a float make one that is too
large. -/
def Legible (v : Value) : Prop := (Json.ofValue v).legible = true

instance (v : Value) : Decidable v.Legible := inferInstanceAs (Decidable (_ = _))

theorem Stable.legible (h : v.Stable) : v.Legible := legible_ofValue v h

/-- **What is read back** from the compact or the pretty text of a value with at most 127 arrays
and objects inside one another. -/
theorem parse?_text_eq_reread {layout : Json.Layout} (hblank : layout.Blank)
    (hdepth : v.depth ≤ Json.maxDepth) :
    parse? (v.text layout) = if v.Legible then some v.canonical.reread else none := by
  have hjson := Json.parse?_text_of_fits hblank (fits_ofValue v) (ordered_ofValue v)
    (Nat.le_trans (depth_ofValue_le v) hdepth)
  rw [parse?, text, hjson, ← ofJson_reread]
  show Option.map ofJson _ = if (Json.ofValue v).legible = true then _ else _
  split <;> rfl

/-! ### Writing again

A float that comes back as an integer has the text that it had, because a whole number
is written without a fraction in both kinds.  So nothing that can be read from the texts
tells the two apart.
-/

variable {layout : Json.Layout}

theorem render_rereadFloat {x : Double} (hx : x.Stable) (depth : Nat) :
    Json.render layout depth (Json.ofValue (rereadFloat x)) =
      Json.render layout depth (Json.ofValue (.float x)) := by
  cases hreread : x.reread? with
  | none => rw [rereadFloat_of_stable hx hreread]
  | some i =>
      have hfinite := Json.isFinite_of_stable hx
      have htext := Double.text_of_reread? hreread
      rw [rereadFloat, hreread]
      show Digits.ofInt i.toInt = (if x.isFinite then Json.Scalar.float x else .null).text
      rw [if_pos hfinite, Json.Scalar.text, if_pos hfinite, htext]

theorem renderFields_eq_map (depth : Nat) (fields : List (String × Json)) :
    Json.renderFields layout depth fields =
      (fields.map (Prod.map id (Json.render layout depth))).map fun part =>
        Json.stringText part.1 ++ ':' :: layout.afterColon ++ part.2 := by
  induction fields with
  | nil => rfl
  | cons entry rest ih =>
      rw [Json.renderFields, ih]
      rfl

mutual

/-- What is read back has the text of what was written, at any depth. -/
theorem render_reread : ∀ (v : Value) (depth : Nat), v.Stable →
    Json.render layout depth (Json.ofValue v.reread) = Json.render layout depth (Json.ofValue v)
  | .null, _, _ | .bool _, _, _ | .integer _, _, _ | .string _, _, _ => rfl
  | .float _, depth, h => render_rereadFloat h depth
  | .array items, depth, h => by
      rw [reread, Json.ofValue, Json.ofValue, Json.render, Json.render,
        renderItems_rereadItems items (depth + 1) h]
  | .object entries, depth, h => by
      rw [reread, Json.ofValue, Json.ofValue, Json.render, Json.render, renderFields_eq_map,
        renderFields_eq_map, Fields.map_ofList, Fields.map_ofList,
        render_rereadEntries entries (depth + 1) h]

theorem renderItems_rereadItems : ∀ (items : List Value) (depth : Nat), StableItems items →
    Json.renderItems layout depth (Json.ofItems (rereadItems items)) =
      Json.renderItems layout depth (Json.ofItems items)
  | [], _, _ => rfl
  | v :: rest, depth, h => by
      rw [rereadItems, Json.ofItems, Json.ofItems, Json.renderItems, Json.renderItems,
        render_reread v depth h.1, renderItems_rereadItems rest depth h.2]

theorem render_rereadEntries : ∀ (entries : List (String × Value)) (depth : Nat),
    StableEntries entries →
      (Json.ofEntries (rereadEntries entries)).map (Prod.map id (Json.render layout depth)) =
        (Json.ofEntries entries).map (Prod.map id (Json.render layout depth))
  | [], _, _ => rfl
  | (key, v) :: rest, depth, h => by
      rw [rereadEntries, Json.ofEntries, Json.ofEntries, List.map_cons, List.map_cons,
        render_rereadEntries rest depth h.2, Prod.map_apply, Prod.map_apply,
        render_reread v depth h.1]

end

/-- **Reading back does not change the text** of a value whose floats are stable. -/
theorem text_reread (h : v.Stable) (layout : Json.Layout) :
    v.reread.text layout = v.text layout := by
  rw [text, text, Json.text, Json.text, render_reread v 0 h]

end Value

end FieldQuery

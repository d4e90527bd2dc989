/-
Values whose entries stand in another order.

One value is another one reordered if it lists the entries of any objects inside it,
inside arrays too, in another order; no key stands twice in an object whose entries
change their places. Ascending entries are determined by their look-ups, and a look-up
among different keys does not ask for their order.  So both values have one canonical
form, and the text of a value, its document and what a query gives on it depend on this
form alone.

The condition on the keys is needed where entries change their places and nowhere else:
of two entries with one key the last one counts, and that may be the other one
afterwards.

Two values that are reordered are not equal and are not made equal anywhere.  What is
shown is that nothing the program does can tell them apart, the texts that it prints
included.
-/
import FieldQuery.Proofs.Value.Ordered
import FieldQuery.Proofs.Json.RoundTrip
import FieldQuery.Run

namespace FieldQuery

namespace Value

/-! ### Reordering

An object is reordered by reordering the values of its entries in place and then moving
the entries.  The relation keeps these two steps apart, so that each is used by itself.
-/

mutual

/-- Whether the second value lists the entries of objects inside the first in another order. -/
inductive Reordered : Value → Value → Prop
  | same (v : Value) : Reordered v v
  | array {items others : List Value} :
      ReorderedItems items others → Reordered (.array items) (.array others)
  /-- The values of the entries are reordered, and then the entries themselves. -/
  | object {entries between others : List (String × Value)} :
      (entries.map Prod.fst).Nodup → ReorderedEntries entries between → between.Perm others →
        Reordered (.object entries) (.object others)

/-- Whether the items of two arrays are reordered one by one. -/
inductive ReorderedItems : List Value → List Value → Prop
  | nil : ReorderedItems [] []
  | cons {v w : Value} {rest others : List Value} :
      Reordered v w → ReorderedItems rest others → ReorderedItems (v :: rest) (w :: others)

/-- Whether the values of two lists of entries are reordered one by one. -/
inductive ReorderedEntries : List (String × Value) → List (String × Value) → Prop
  | nil : ReorderedEntries [] []
  | cons {key : String} {v w : Value} {rest others : List (String × Value)} :
      Reordered v w → ReorderedEntries rest others →
        ReorderedEntries ((key, v) :: rest) ((key, w) :: others)

end

mutual

/-- A reordered value has the same canonical form. -/
theorem Reordered.canonical_eq : ∀ {v w : Value}, Reordered v w → v.canonical = w.canonical
  | _, _, .same v => rfl
  | _, _, .array h => congrArg Value.array h.canonical_eq
  | _, _, @Reordered.object entries between others hkeys h hperm => by
      have hnodup : ((canonicalEntries entries).map Prod.fst).Nodup := by
        rwa [map_fst_canonicalEntries]
      have hcanonical : (canonicalEntries between).Perm (canonicalEntries others) := by
        rw [canonicalEntries_eq_map, canonicalEntries_eq_map]
        exact hperm.map _
      rw [h.canonical_eq] at hnodup
      rw [canonical, canonical, h.canonical_eq, Fields.ofList_perm hnodup hcanonical]

theorem ReorderedItems.canonical_eq : ∀ {items others : List Value},
    ReorderedItems items others → canonicalItems items = canonicalItems others
  | _, _, .nil => rfl
  | _, _, .cons h hrest => by
      rw [canonicalItems, canonicalItems, h.canonical_eq, hrest.canonical_eq]

theorem ReorderedEntries.canonical_eq : ∀ {entries others : List (String × Value)},
    ReorderedEntries entries others → canonicalEntries entries = canonicalEntries others
  | _, _, .nil => rfl
  | _, _, .cons h hrest => by
      rw [canonicalEntries, canonicalEntries, h.canonical_eq, hrest.canonical_eq]

end

/-! ### What depends on the canonical form

Writing a value brings its objects in order on the way, so it makes no difference
whether they were in order before.  Documents are made of the canonical form to begin
with.
-/

theorem ofEntries_eq_map (entries : List (String × Value)) :
    Json.ofEntries entries = entries.map (Prod.map id Json.ofValue) := by
  induction entries with
  | nil => rfl
  | cons entry rest ih =>
      rw [Json.ofEntries, ih]
      rfl

mutual

/-- The JSON value of the canonical form is that of the value. -/
theorem ofValue_canonical : ∀ v : Value, Json.ofValue v.canonical = Json.ofValue v
  | .null | .bool _ | .integer _ | .float _ | .string _ => rfl
  | .array items => congrArg Json.array (ofItems_canonicalItems items)
  | .object entries => by
      rw [canonical, Json.ofValue, Json.ofValue, ofEntries_eq_map, Fields.map_ofList,
        ← ofEntries_eq_map, ofEntries_canonicalEntries entries,
        Fields.ofList_of_ascending (Fields.ascending_ofList _)]

theorem ofItems_canonicalItems : ∀ items, Json.ofItems (canonicalItems items) = Json.ofItems items
  | [] => rfl
  | v :: rest => by
      rw [canonicalItems, Json.ofItems, Json.ofItems, ofValue_canonical v,
        ofItems_canonicalItems rest]

theorem ofEntries_canonicalEntries : ∀ entries,
    Json.ofEntries (canonicalEntries entries) = Json.ofEntries entries
  | [] => rfl
  | (key, v) :: rest => by
      rw [canonicalEntries, Json.ofEntries, Json.ofEntries, ofValue_canonical v,
        ofEntries_canonicalEntries rest]

end

variable {v w : Value}

/-- The text of a value is that of its canonical form. -/
theorem text_congr (h : v.canonical = w.canonical) (layout : Json.Layout) :
    v.text layout = w.text layout := by
  rw [text, text, ← ofValue_canonical v, h, ofValue_canonical w]

theorem ofValue?_eq_canonical (v : Value) :
    Document.ofValue? v = match v.canonical with
      | .object fields => some ⟨.ofFields fields, fields, rfl⟩
      | _ => none := by
  cases v <;> rfl

/-- The document of a value is that of its canonical form. -/
theorem ofValue?_congr (h : v.canonical = w.canonical) :
    Document.ofValue? v = Document.ofValue? w := by
  rw [ofValue?_eq_canonical, ofValue?_eq_canonical, h]

theorem run_canonical_congr (h : v.canonical = w.canonical) (merge : Merge) (text : String) :
    Query.run merge text v = Query.run merge text w := by
  unfold Query.run Query.evaluate
  rw [ofValue?_congr h]

/--
**The order of entries does not show.**  A value and the same value with the entries of any
objects inside it in another order have the same compact and pretty text; their documents have
the same nodes under the same numbers and the same node at every path; and every query gives the
same on both, the same error, no outcome or the same selected value, which again has one text
in whatever order the entries inside it stand.
-/
theorem Reordered.run_eq (h : Reordered v w) :
    (∀ layout, v.text layout = w.text layout) ∧ Document.ofValue? v = Document.ofValue? w ∧
      ∀ merge text, Query.run merge text v = Query.run merge text w ∧
        ∀ u u', Query.run merge text v = .ok (.selected u) → Reordered u u' →
          ∀ layout, u.text layout = u'.text layout :=
  ⟨text_congr h.canonical_eq, ofValue?_congr h.canonical_eq, fun merge text =>
    ⟨run_canonical_congr h.canonical_eq merge text, fun _ _ _ hu => text_congr hu.canonical_eq⟩⟩

/-- Entries change their places in an object, in an object inside it and in one inside an array,
and two of them claim one path. -/
theorem Reordered.run_eq_nested :
    let v := Value.object [("b", .array [.object [("y", .integer 1), ("x", .null)]]),
      ("a", .object [("d", .bool true), ("b", .integer 2)]), ("a.b", .integer 3)]
    let w := Value.object [("a.b", .integer 3),
      ("a", .object [("b", .integer 2), ("d", .bool true)]),
      ("b", .array [.object [("x", .null), ("y", .integer 1)]])]
    v.text .pretty = w.text .pretty ∧ (Document.ofValue? v).isSome ∧
      Document.ofValue? v = Document.ofValue? w ∧
      Query.run .deep ".a.b .b where .a.d" v = Query.run .deep ".a.b .b where .a.d" w := by
  have hitem : Reordered (.object [("y", .integer 1), ("x", .null)])
      (.object [("x", .null), ("y", .integer 1)]) :=
    .object (by decide) (.cons (.same _) (.cons (.same _) .nil)) (.swap _ _ _)
  have hinner : Reordered (.object [("d", .bool true), ("b", .integer 2)])
      (.object [("b", .integer 2), ("d", .bool true)]) :=
    .object (by decide) (.cons (.same _) (.cons (.same _) .nil)) (.swap _ _ _)
  intro v w
  have h : Reordered v w := .object (by decide)
    (.cons (.array (.cons hitem .nil)) (.cons hinner (.cons (.same _) .nil)))
    (List.reverse_perm _).symm
  obtain ⟨htext, hdocument, hrun⟩ := Reordered.run_eq h
  exact ⟨htext _, rfl, hdocument, (hrun _ _).1⟩

end Value

end FieldQuery

/-
Document values as JSON and back.

JSON has no NaN and no infinities, so a float that is not finite is lost on the way and
comes back as null.  `finitized` replaces these floats and nothing else, at any depth.
Every other number is held as it is: an integer is an integer again, and a finite float
is the same float again, whole numbers and negative zero too, because a held float is
never looked at as an integer.

The difference to a value that is printed and read again is this last point.  A text
does not say of a whole number whether it was a float, and a JSON value does.  So
nothing here is rounded, and the statement needs no condition on the digits.
-/
import FieldQuery.Proofs.Value.Reread

namespace FieldQuery.Value

mutual

/-- The value with null in place of every float that is not finite. -/
def finitized : Value → Value
  | .float x => if x.isFinite then .float x else .null
  | .array items => .array (finitizedItems items)
  | .object entries => .object (finitizedEntries entries)
  | v => v

/-- The items of an array with null in place of these floats. -/
def finitizedItems : List Value → List Value
  | [] => []
  | v :: rest => v.finitized :: finitizedItems rest

/-- The entries of an object with null in place of these floats. -/
def finitizedEntries : List (String × Value) → List (String × Value)
  | [] => []
  | (key, v) :: rest => (key, v.finitized) :: finitizedEntries rest

end

mutual

/-- A value whose floats are finite has nothing to replace. -/
theorem finitized_of_finite : ∀ v : Value, v.Finite → v.finitized = v
  | .null, _ | .bool _, _ | .integer _, _ | .string _, _ => rfl
  | .float _, h => if_pos h
  | .array items, h => congrArg Value.array (finitizedItems_of_finite items h)
  | .object entries, h => congrArg Value.object (finitizedEntries_of_finite entries h)

theorem finitizedItems_of_finite : ∀ items, FiniteItems items → finitizedItems items = items
  | [], _ => rfl
  | v :: rest, h => by
      rw [finitizedItems, finitized_of_finite v h.1, finitizedItems_of_finite rest h.2]

theorem finitizedEntries_of_finite : ∀ entries,
    FiniteEntries entries → finitizedEntries entries = entries
  | [], _ => rfl
  | (key, v) :: rest, h => by
      rw [finitizedEntries, finitized_of_finite v h.1, finitizedEntries_of_finite rest h.2]

end

/-- A float comes back from JSON as it is held there, or as null if JSON cannot hold it. -/
theorem ofJson_ofValue_float (x : Double) :
    ofJson (Json.ofValue (.float x)) = (finitized (.float x)).canonical := by
  rw [Json.ofValue, finitized]
  split <;> rfl

mutual

/-- What a value comes back as when it has been a JSON value. -/
theorem ofJson_ofValue_eq : ∀ v : Value, ofJson (Json.ofValue v) = v.finitized.canonical
  | .null | .bool _ | .string _ => rfl
  | .integer n => ofScalar_toInt n
  | .float x => ofJson_ofValue_float x
  | .array items => congrArg Value.array (ofItems_ofItems_eq items)
  | .object entries => by
      rw [Json.ofValue, ofJson, ofFields_eq_map, Fields.map_ofList, ← ofFields_eq_map,
        ofFields_ofEntries_eq entries, finitized, canonical]

theorem ofItems_ofItems_eq : ∀ items,
    ofItems (Json.ofItems items) = canonicalItems (finitizedItems items)
  | [] => rfl
  | v :: rest => by
      rw [Json.ofItems, ofItems, finitizedItems, canonicalItems, ofJson_ofValue_eq v,
        ofItems_ofItems_eq rest]

theorem ofFields_ofEntries_eq : ∀ entries,
    ofFields (Json.ofEntries entries) = canonicalEntries (finitizedEntries entries)
  | [] => rfl
  | (key, v) :: rest => by
      rw [Json.ofEntries, ofFields, finitizedEntries, canonicalEntries, ofJson_ofValue_eq v,
        ofFields_ofEntries_eq rest]

end

/--
**Becoming JSON and coming back replaces the floats that are not finite and changes nothing
else.**  A value comes back with null in place of every NaN and every infinity, however deep in
arrays and objects, and with everything else as it was, every number of the same kind; so it comes
back as itself exactly if it has no such float.
-/
theorem ofJson_ofValue_finitized (v : Value) :
    ofJson (Json.ofValue v) = v.finitized.canonical ∧
      (ofJson (Json.ofValue v) = v.canonical ↔ v.canonical.Finite) := by
  refine ⟨ofJson_ofValue_eq v, fun heq => ?_, fun hfinite => ?_⟩
  · rw [← heq]
    exact finite_ofJson _ (fits_ofValue v)
  · rw [← ofValue_canonical, ofJson_ofValue_eq, finitized_of_finite _ hfinite,
      canonical_canonical]

-- one and negative zero stay floats, an infinity and a NaN do not
example : ofJson (Json.ofValue (.array [.float ⟨false, 0x3ff0000000000000, by decide⟩,
      .float ⟨true, 0, by decide⟩, .integer 1, .object [("a", .float ⟨true, 0x7ff0000000000000,
      by decide⟩)], .float ⟨false, 0x7ff8000000000000, by decide⟩])) =
    .array [.float ⟨false, 0x3ff0000000000000, by decide⟩, .float ⟨true, 0, by decide⟩, .integer 1,
      .object [("a", .null)], .null] := by rfl

end FieldQuery.Value

/-
Values that are read.

A text has one value or none, and the grammar says of it what the reader had to keep in
mind: no more than `maxDepth` arrays and objects stand inside one another, and every
number fits, an integer into 64 bits and a float into the finite ones.  Both are read
off a derivation, so nothing has to be said about the states in between.

Becoming a document keeps both.  An integer that does not fit into a document value
becomes a float, and it is finite because rounding a number of 64 bits is.
-/
import FieldQuery.Proofs.Json.RoundTrip

namespace FieldQuery

namespace Json

/-! ### Numbers in a text

What fits is settled when a number is read.  Later on no number is made from others.
-/

/-- Whether the scalar of a token fits. -/
def Token.Fits : Token → Prop
  | .scalar s => s.Fits
  | _ => True

theorem fits_of_punctuation? {c : Char} {token : Token} (h : punctuation? c = some token) :
    token.Fits := by
  unfold punctuation? at h
  split at h
  case h_7 => simp at h
  all_goals
    obtain rfl := Option.some.inj h
    trivial

theorem Spelling.fits {part : List Char} {token : Token} (h : Spelling part token) :
    token.Fits := by
  cases h with
  | mark h => exact fits_of_punctuation? h
  | number h => exact h.fits
  | nullWord | trueWord | falseWord | string _ => trivial

/-- Every number in a text fits. -/
theorem Spelled.fits {cs : List Char} {toks : List Token} (h : Spelled cs toks) :
    ∀ token ∈ toks, token.Fits := by
  induction h with
  | nil => simp
  | space _ _ ih => exact ih
  | token hpart _ ih => exact List.forall_mem_cons.mpr ⟨hpart.fits, ih⟩

/-! ### Values of a text

`Within` puts depth and numbers together, because both go down a derivation in the same
way: a container has one more level than its parts and the numbers of its parts.
-/

theorem depthItems_le_iff {items : List Json} {n : Nat} :
    depthItems items ≤ n ↔ ∀ j ∈ items, j.depth ≤ n := by
  induction items with
  | nil => simp [depthItems]
  | cons j rest ih => rw [depthItems, Nat.max_le, ih, List.forall_mem_cons]

theorem fitsItems_iff {items : List Json} : FitsItems items ↔ ∀ j ∈ items, j.Fits := by
  induction items with
  | nil => simp [FitsItems]
  | cons j rest ih => rw [FitsItems, ih, List.forall_mem_cons]

/-- Whether at most `n` arrays and objects stand inside one another in a value, and its numbers
fit. -/
structure Within (n : Nat) (j : Json) : Prop where
  depth_le : j.depth ≤ n
  fits : j.Fits

theorem within_array {n : Nat} {items : List Json} (h : ∀ j ∈ items, j.Within n) :
    (Json.array items).Within (n + 1) :=
  ⟨Nat.succ_le_succ (depthItems_le_iff.mpr fun j hj => (h j hj).depth_le),
    fitsItems_iff.mpr fun j hj => (h j hj).fits⟩

theorem within_object {n : Nat} {fields : Fields Json} (h : ∀ entry ∈ fields, entry.2.Within n) :
    (Json.object fields).Within (n + 1) :=
  ⟨Nat.succ_le_succ (depthFields_le_iff.mpr fun entry hentry => (h entry hentry).depth_le),
    fitsFields_iff.mpr fun entry hentry => (h entry hentry).fits⟩

/-- The tokens of a part are among those of the whole. -/
theorem mem_enclosed {opening closing token : Token} {part : List Token}
    {parts : List (List Token)} (hpart : part ∈ parts) (h : token ∈ part) :
    token ∈ enclosed opening closing parts := by
  cases parts with
  | nil => exact absurd hpart List.not_mem_nil
  | cons first parts =>
      rw [enclosed_cons]
      refine List.mem_cons_of_mem _ ?_
      rcases List.mem_cons.mp hpart with rfl | hpart
      · exact List.mem_append_left _ h
      · have hfollowing : token ∈ following parts :=
          List.mem_flatMap.mpr ⟨part, hpart, List.mem_cons_of_mem _ h⟩
        exact List.mem_append_right _ (List.mem_append_left _ hfollowing)

/-- Tokens that fit make a value that does. -/
theorem Derives.within {n : Nat} {toks : List Token} {j : Json} (h : Derives n toks j)
    (hfits : ∀ token ∈ toks, token.Fits) : j.Within n := by
  induction h with
  | scalar s => exact ⟨Nat.zero_le _, hfits (.scalar s) List.mem_cons_self⟩
  | array h ih =>
      refine within_array (List.forall_mem_map.mpr fun part hpart => ih part hpart ?_)
      exact fun token htoken => hfits token (mem_enclosed (List.mem_map_of_mem hpart) htoken)
  | object h ih =>
      refine within_object (Fields.forall_mem_ofList (P := Within _)
        (List.forall_mem_map.mpr fun part hpart => ih part hpart fun token htoken => ?_))
      have hentry : token ∈ entryTokens part.1 part.2.1 :=
        List.mem_cons_of_mem _ (List.mem_cons_of_mem _ htoken)
      exact hfits token (mem_enclosed (List.mem_map_of_mem hpart) hentry)

/-- **The value of a text is not too deep, and its numbers fit.** -/
theorem Denotes.within {text : String} {j : Json} (h : Denotes text j) : j.Within maxDepth := by
  obtain ⟨toks, hspelled, hderives⟩ := h
  exact hderives.within hspelled.fits

end Json

namespace Value

mutual

/-- Whether every float in a value is finite. -/
def Finite : Value → Prop
  | .float x => x.isFinite = true
  | .array items => FiniteItems items
  | .object entries => FiniteEntries entries
  | _ => True

/-- Whether every float in the items of an array is finite. -/
def FiniteItems : List Value → Prop
  | [] => True
  | v :: rest => v.Finite ∧ FiniteItems rest

/-- Whether every float in the values of the entries of an object is finite. -/
def FiniteEntries : List (String × Value) → Prop
  | [] => True
  | (_, v) :: rest => v.Finite ∧ FiniteEntries rest

end

theorem finite_ofScalar {s : Json.Scalar} (h : s.Fits) : (ofScalar s).Finite := by
  cases s with
  | integer n =>
      rw [ofScalar_integer]
      split
      · trivial
      · have hrange : -0x8000000000000000 ≤ n ∧ n < 0x10000000000000000 := h
        exact (Double.ofInt_spec (by omega)).1
  | float x => exact h
  | _ => trivial

mutual

/-- A document value is as deep as the JSON value that it is made from. -/
theorem depth_ofJson : ∀ j : Json, (ofJson j).depth = j.depth
  | .scalar s => by
      cases s with
      | integer n =>
          rw [ofJson, ofScalar_integer]
          split <;> rfl
      | _ => rfl
  | .array items => congrArg (· + 1) (depth_ofItems items)
  | .object fields => congrArg (· + 1) (depth_ofFields fields)

theorem depth_ofItems : ∀ items, depthItems (ofItems items) = Json.depthItems items
  | [] => rfl
  | j :: rest => by
      rw [ofItems, depthItems, Json.depthItems, depth_ofJson j, depth_ofItems rest]

theorem depth_ofFields : ∀ fields, depthEntries (ofFields fields) = Json.depthFields fields
  | [] => rfl
  | (key, j) :: rest => by
      rw [ofFields, depthEntries, Json.depthFields, depth_ofJson j, depth_ofFields rest]

end

mutual

/-- Its floats are finite if the numbers of the JSON value fit. -/
theorem finite_ofJson : ∀ j : Json, j.Fits → (ofJson j).Finite
  | .scalar _, h => finite_ofScalar h
  | .array items, h => finite_ofItems items h
  | .object fields, h => finite_ofFields fields h

theorem finite_ofItems : ∀ items, Json.FitsItems items → FiniteItems (ofItems items)
  | [], _ => trivial
  | j :: rest, h => ⟨finite_ofJson j h.1, finite_ofItems rest h.2⟩

theorem finite_ofFields : ∀ fields, Json.FitsFields fields → FiniteEntries (ofFields fields)
  | [], _ => trivial
  | (_, j) :: rest, h => ⟨finite_ofJson j h.1, finite_ofFields rest h.2⟩

end

/-- What a JSON text stands for is not too deep, and its floats are finite. -/
theorem finite_of_parse? {text : String} {v : Value} (h : parse? text = some v) :
    v.depth ≤ Json.maxDepth ∧ v.Finite := by
  obtain ⟨j, hj, rfl⟩ := Option.map_eq_some_iff.mp h
  obtain ⟨hdepth, hfits⟩ := (Json.parse?_eq_some_iff.mp hj).within
  rw [depth_ofJson]
  exact ⟨hdepth, finite_ofJson j hfits⟩

end Value

end FieldQuery

/-
Values that are rebuilt from their tokens.

What is written of a value is a text of the value that it is read as, and this has the
depth of what was written and the order of its entries.  So the tokens of a value whose
entries are in order are among the texts that the grammar has for it, `derives_tokens`,
and nothing more is needed of the reader: bringing entries in order changes nothing, and
every key stands once.

The grammar allows entries in any order and keys that are repeated, and then the value
has the last entry of each key, in order.  Writing never makes use of that freedom,
which is why order has to be a hypothesis here and is no loss.
-/
import FieldQuery.Proofs.Json.Accepted
import FieldQuery.Proofs.Json.Written

namespace FieldQuery

namespace Json

/-! ### Depth and order

Both are counted and checked on values of JSON.  A document value has its own depth and
its own order, and the two are compared where one is made from the other.
-/

mutual

/-- How many arrays and objects stand inside one another at most. -/
def depth : Json → Nat
  | .scalar _ => 0
  | .array items => depthItems items + 1
  | .object fields => depthFields fields + 1

/-- The greatest depth of the items of an array. -/
def depthItems : List Json → Nat
  | [] => 0
  | j :: rest => max j.depth (depthItems rest)

/-- The greatest depth of the values of the entries of an object. -/
def depthFields : List (String × Json) → Nat
  | [] => 0
  | (_, j) :: rest => max j.depth (depthFields rest)

end

mutual

/-- Whether every object inside a value lists its entries by ascending key. -/
def Ordered : Json → Prop
  | .scalar _ => True
  | .array items => OrderedItems items
  | .object fields => Fields.Ascending fields ∧ OrderedFields fields

/-- Whether the items of an array are in order. -/
def OrderedItems : List Json → Prop
  | [] => True
  | j :: rest => j.Ordered ∧ OrderedItems rest

/-- Whether the values of the entries of an object are in order. -/
def OrderedFields : List (String × Json) → Prop
  | [] => True
  | (_, j) :: rest => j.Ordered ∧ OrderedFields rest

end

/-! ### Values that are read back

Reading back changes scalars and nothing else, so it keeps whatever depends on the
shape.
-/

theorem rereadFields_eq_map (fields : List (String × Json)) :
    rereadFields fields = fields.map (Prod.map id reread) := by
  induction fields with
  | nil => rfl
  | cons entry rest ih =>
      rw [rereadFields, ih]
      rfl

mutual

/-- What is read back has the depth of what was written. -/
theorem depth_reread : ∀ j : Json, j.reread.depth = j.depth
  | .scalar _ => rfl
  | .array items => congrArg (· + 1) (depth_rereadItems items)
  | .object fields => congrArg (· + 1) (depth_rereadFields fields)

theorem depth_rereadItems : ∀ items, depthItems (rereadItems items) = depthItems items
  | [] => rfl
  | j :: rest => by
      rw [rereadItems, depthItems, depthItems, depth_reread j, depth_rereadItems rest]

theorem depth_rereadFields : ∀ fields, depthFields (rereadFields fields) = depthFields fields
  | [] => rfl
  | (key, j) :: rest => by
      rw [rereadFields, depthFields, depthFields, depth_reread j, depth_rereadFields rest]

end

mutual

/-- What is read back is in the order of what was written. -/
theorem Ordered.reread : ∀ {j : Json}, j.Ordered → j.reread.Ordered
  | .scalar _, _ => trivial
  | .array _, h => OrderedItems.reread h
  | .object fields, h => by
      refine ⟨?_, OrderedFields.reread h.2⟩
      rw [rereadFields_eq_map]
      exact List.pairwise_map.mpr h.1

theorem OrderedItems.reread : ∀ {items}, OrderedItems items → OrderedItems (rereadItems items)
  | [], _ => trivial
  | _ :: _, h => ⟨h.1.reread, OrderedItems.reread h.2⟩

theorem OrderedFields.reread : ∀ {fields}, OrderedFields fields →
    OrderedFields (rereadFields fields)
  | [], _ => trivial
  | (_, _) :: _, h => ⟨h.1.reread, OrderedFields.reread h.2⟩

end

/-! ### Tokens of a value

A container is its parts with commas between them.  The grammar has one production for
each kind, and the induction on the value meets just these.
-/

theorem tokenItems_eq_map (items : List Json) : tokenItems items = items.map tokens := by
  induction items with
  | nil => rfl
  | cons j rest ih => rw [tokenItems, ih, List.map_cons]

theorem tokenFields_eq_map (fields : List (String × Json)) :
    tokenFields fields = fields.map fun entry => entryTokens entry.1 (tokens entry.2) := by
  induction fields with
  | nil => rfl
  | cons entry rest ih => rw [tokenFields, ih, List.map_cons]

theorem derives_array {n : Nat} {items : List Json} (h : ∀ j ∈ items, Derives n (tokens j) j) :
    Derives (n + 1) (tokens (.array items)) (.array items) := by
  have hparts : ∀ part ∈ items.map fun j => (tokens j, j), Derives n part.1 part.2 :=
    List.forall_mem_map.mpr h
  have harray := Derives.array hparts
  rw [List.map_map, List.map_map] at harray
  have hvalues : items.map (Prod.snd ∘ fun j => (tokens j, j)) = items := List.map_id items
  rw [tokens, tokenItems_eq_map]
  rwa [hvalues] at harray

theorem derives_object {n : Nat} {fields : Fields Json} (hascending : fields.Ascending)
    (h : ∀ entry ∈ fields, Derives n (tokens entry.2) entry.2) :
    Derives (n + 1) (tokens (.object fields)) (.object fields) := by
  have hparts : ∀ part ∈ fields.map fun entry => (entry.1, tokens entry.2, entry.2),
      Derives n part.2.1 part.2.2 := List.forall_mem_map.mpr h
  have hobject := Derives.object hparts
  rw [List.map_map, List.map_map] at hobject
  have hentries : Fields.ofList (fields.map ((fun part => (part.1, part.2.2)) ∘
      fun entry => (entry.1, tokens entry.2, entry.2))) = fields :=
    (congrArg Fields.ofList (List.map_id fields)).trans (Fields.ofList_of_ascending hascending)
  rw [tokens, tokenFields_eq_map]
  rwa [hentries] at hobject

mutual

/-- The tokens of a value in order are those of the grammar. -/
theorem derives_tokens : ∀ {j : Json} {n : Nat}, j.Ordered → j.depth ≤ n → Derives n (tokens j) j
  | .scalar s, _, _, _ => .scalar s
  | .array _, _ + 1, horder, hdepth =>
      derives_array (derives_items horder (Nat.le_of_succ_le_succ hdepth))
  | .object _, _ + 1, horder, hdepth =>
      derives_object horder.1 (derives_fields horder.2 (Nat.le_of_succ_le_succ hdepth))

theorem derives_items : ∀ {items : List Json} {n : Nat}, OrderedItems items →
    depthItems items ≤ n → ∀ j ∈ items, Derives n (tokens j) j
  | [], _, _, _ => by simp
  | j :: rest, n, horder, hdepth => by
      have hmax := Nat.max_le.mp hdepth
      exact List.forall_mem_cons.mpr
        ⟨derives_tokens horder.1 hmax.1, derives_items horder.2 hmax.2⟩

theorem derives_fields : ∀ {fields : List (String × Json)} {n : Nat}, OrderedFields fields →
    depthFields fields ≤ n → ∀ entry ∈ fields, Derives n (tokens entry.2) entry.2
  | [], _, _, _ => by simp
  | (_, _) :: _, n, horder, hdepth => by
      have hmax := Nat.max_le.mp hdepth
      exact List.forall_mem_cons.mpr
        ⟨derives_tokens horder.1 hmax.1, derives_fields horder.2 hmax.2⟩

end

end Json

end FieldQuery

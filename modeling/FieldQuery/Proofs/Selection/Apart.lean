/-
Placing two values at places that lie apart.

Lists of names lie apart if neither is a prefix of the other: they agree up to some
point and differ there.  `Apart` says this with its constructors, because every proof
below is by induction on how far the two agree; at the point where they differ, two keys
of one object are altered, and up to there both placements enter the same objects.

So neither closes or opens anything on the way of the other
(`AscendingAlong.insertUnder`), and they can be made in either order
(`insertUnder_comm`).

What is required of the fields is only that the objects on the two ways list their keys
in ascending order.  `insertUnder_of_apart` asks more, that all objects do, since it
also speaks of other places.

Not claimed: anything about places of which one is above the other.  There the order of
the placements counts.
-/
import FieldQuery.Proofs.Selection.Placement

namespace FieldQuery

/-- Two lists agree up to a point where both go on and differ. -/
inductive Apart {α : Type} : List α → List α → Prop
  | head {a b : α} (hne : a ≠ b) (s t : List α) : Apart (a :: s) (b :: t)
  | tail (a : α) {s t : List α} (h : Apart s t) : Apart (a :: s) (a :: t)

namespace Apart

variable {α : Type} {s t : List α}

theorem symm (h : Apart s t) : Apart t s := by
  induction h with
  | head hne s t => exact .head hne.symm t s
  | tail a _ ih => exact .tail a ih

theorem ne_nil (h : Apart s t) : s ≠ [] := by
  cases h <;> exact List.cons_ne_nil _ _

/-- Lists of which neither is a prefix of the other lie apart. -/
theorem of_not_prefix (hst : ¬s <+: t) (hts : ¬t <+: s) : Apart s t := by
  induction s generalizing t with
  | nil => exact absurd List.nil_prefix hst
  | cons a s ih =>
      cases t with
      | nil => exact absurd List.nil_prefix hts
      | cons b t =>
          by_cases hhead : a = b
          · subst hhead
            rw [List.prefix_cons_inj] at hst hts
            exact .tail a (ih hst hts)
          · exact .head hhead s t

end Apart

namespace Fields

open Value

variable {fields : Fields Value} {s t : List String}

/-- A placement leaves the objects on the way to a place apart from its own as they were. -/
theorem AscendingAlong.insertUnder (ht : AscendingAlong t fields) (hs : AscendingAlong s fields)
    (h : Apart s t) (x : Value) : AscendingAlong t (insertUnder .deep x s fields) := by
  induction h generalizing fields with
  | head hne s t =>
      rw [insertUnder_cons]
      refine ⟨hs.1.alter _ _, ?_⟩
      rw [field?_alter_of_ne hs.1 hne.symm]
      exact ht.2
  | tail name h ih =>
      rw [insertUnder_cons]
      refine ⟨hs.1.alter _ _, ?_⟩
      rw [field?_alter_self hs.1, placedAt_of_ne_nil x h.ne_nil]
      exact ih ht.2 hs.2

/-- Placements apart from each other can be made in either order. -/
theorem insertUnder_comm (hs : AscendingAlong s fields) (h : Apart s t) (x y : Value) :
    insertUnder .deep y t (insertUnder .deep x s fields) =
      insertUnder .deep x s (insertUnder .deep y t fields) := by
  induction h generalizing fields with
  | head hne s t =>
      simp only [insertUnder_cons]
      exact (alter_comm hs.1 hne _ _).symm
  | @tail name s t h ih =>
      simp only [insertUnder_cons, alter_alter hs.1]
      refine alter_congr hs.1 ?_
      -- both placements enter the object at the name, and there the rest of the names lie apart
      have hentered := ih hs.2
      rw [field?_of_ascending hs.1] at hentered
      simp only [placedAt_of_ne_nil x h.ne_nil, placedAt_of_ne_nil y h.symm.ne_nil]
      exact congrArg Value.object hentered

/--
**Placements apart from each other do not disturb each other.**  The fields are in order, with any
values inside them, and neither list of names is a prefix of the other.  Then two values are placed
under them with the same result in either order; each list of names leads to its own value
afterwards; and keys that are apart from both lead where they led before, if anywhere.
-/
theorem insertUnder_of_apart (h : (Value.object fields).Ordered) (hst : ¬s <+: t) (hts : ¬t <+: s)
    (x y : Value) :
    insertUnder .deep y t (insertUnder .deep x s fields) =
        insertUnder .deep x s (insertUnder .deep y t fields) ∧
      (Value.object (insertUnder .deep y t (insertUnder .deep x s fields))).at? s = some x ∧
      (Value.object (insertUnder .deep y t (insertUnder .deep x s fields))).at? t = some y ∧
      ∀ keys : List String, ¬s <+: keys → ¬keys <+: s → ¬t <+: keys → ¬keys <+: t →
        (Value.object (insertUnder .deep y t (insertUnder .deep x s fields))).at? keys =
          (Value.object fields).at? keys := by
  have hapart := Apart.of_not_prefix hst hts
  have hs := ascendingAlong_of_ordered h s
  have ht := ascendingAlong_of_ordered h t
  have hcomm := insertUnder_comm hs hapart x y
  have hafterS := ht.insertUnder hs hapart x
  have hafterT := hs.insertUnder ht hapart.symm y
  refine ⟨hcomm, ?_, ?_, ?_⟩
  · have hplace := at?_insertUnder_append (v := x) hafterT hapart.ne_nil []
    rw [List.append_nil] at hplace
    rw [hcomm, hplace]
    rfl
  · have hplace := at?_insertUnder_append (v := y) hafterS hapart.symm.ne_nil []
    rw [List.append_nil] at hplace
    rw [hplace]
    rfl
  · intro keys hbelowS haboveS hbelowT haboveT
    rw [at?_insertUnder_of_apart hafterS hbelowT haboveT,
      at?_insertUnder_of_apart hs hbelowS haboveS]

/-- Below a common name one placement enters an object and the other takes the place of a number. -/
theorem insertUnder_of_apart_shared :
    let fields : Fields Value :=
      [("a", .object [("b", .integer 1), ("c", .object [("d", .null)])]), ("e", .bool true)]
    let placed := insertUnder .deep (.integer 3) ["a", "c", "f"]
      (insertUnder .deep (.integer 2) ["a", "b", "g"] fields)
    (Value.object fields).Ordered ∧ ¬["a", "b", "g"] <+: ["a", "c", "f"] ∧
      ¬["a", "c", "f"] <+: ["a", "b", "g"] ∧
      placed = insertUnder .deep (.integer 2) ["a", "b", "g"]
        (insertUnder .deep (.integer 3) ["a", "c", "f"] fields) ∧
      (Value.object placed).at? ["a", "b", "g"] = some (.integer 2) ∧
      (Value.object placed).at? ["a", "c", "f"] = some (.integer 3) ∧
      (Value.object placed).at? ["a", "c", "d"] = some .null ∧
      (Value.object placed).at? ["e", "h"] = none := by
  have hordered := Value.ordered_canonical (.object
    [("a", .object [("b", .integer 1), ("c", .object [("d", .null)])]), ("e", .bool true)])
  obtain ⟨hcomm, hx, hy, hbeside⟩ := insertUnder_of_apart (s := ["a", "b", "g"])
    (t := ["a", "c", "f"]) hordered (by decide) (by decide) (.integer 2) (.integer 3)
  refine ⟨hordered, by decide, by decide, hcomm, hx, hy, ?_, ?_⟩
  · exact hbeside ["a", "c", "d"] (by decide) (by decide) (by decide) (by decide)
  · exact hbeside ["e", "h"] (by decide) (by decide) (by decide) (by decide)

end Fields

end FieldQuery

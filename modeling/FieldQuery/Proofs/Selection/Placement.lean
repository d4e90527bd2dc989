/-
Placing a value under a list of names.

When the objects on the way are entered, placing a value changes what stands at and
below its place and nothing beside it.  `at?_insertUnder_append` and
`at?_insertUnder_of_apart` say what any keys lead to afterwards, above the place there
are objects, and placing what is there already changes nothing.

Two conditions on the fields occur.  `Ordered` is about all objects inside them and is
what a selection has from the start.  `AscendingAlong` is about the objects on one way
and is all that a lookup needs; a placement keeps it on every way that lies apart from
its own, while a value that is placed need not be in order itself.

On the way, what is no object is replaced by an empty one.  This is part of
`Merge.inner`, which answers with no fields then, so the lemmas have no case for it.
-/
import FieldQuery.Proofs.Value.Ordered
import FieldQuery.Selection

namespace FieldQuery

namespace Value

theorem field?_alter_self {fields : Fields Value} (h : Fields.Ascending fields) (key : String)
    (f : Option Value → Value) :
    (Value.object (Fields.alter key f fields)).field? key =
      some (f ((Value.object fields).field? key)) := by
  rw [field?_of_ascending (h.alter key f), field?_of_ascending h, Fields.lookup_alter_self key f h]

theorem field?_alter_of_ne {fields : Fields Value} (h : Fields.Ascending fields)
    {key k : String} (hne : k ≠ key) (f : Option Value → Value) :
    (Value.object (Fields.alter key f fields)).field? k = (Value.object fields).field? k := by
  rw [field?_of_ascending (h.alter key f), field?_of_ascending h,
    Fields.lookup_alter_of_ne f hne fields]

end Value

/-- What an object is entered in is in order if the object is. -/
theorem Merge.ordered_inner (merge : Merge) {old : Option Value}
    (h : ∀ v ∈ old, v.Ordered) : (Value.object (merge.inner old)).Ordered := by
  unfold Merge.inner
  split
  · exact h _ rfl
  · exact Value.ordered_empty

/-- Below a key nothing is lost when its object is entered. -/
theorem Merge.at?_inner (old : Option Value) {keys : List String} (h : keys ≠ []) :
    (Value.object (Merge.deep.inner old)).at? keys = old.bind fun v => v.at? keys := by
  obtain ⟨key, rest, rfl⟩ := List.exists_cons_of_ne_nil h
  rcases old with _ | v
  · rfl
  · cases v <;> rfl

namespace Fields

open Value

/-! ### What placing keeps

`insertUnder` goes down to the last name and alters one key there.  `insertUnder_cons`
makes this one equation for every list of names, so that the proofs below have one step
and not two.
-/

/-- Placing a value in order keeps the order, however the objects on the way are shared. -/
theorem ordered_insertUnder (merge : Merge) {v : Value} (hv : v.Ordered) (names : List String)
    {fields : Fields Value} (h : (Value.object fields).Ordered) :
    (Value.object (insertUnder merge v names fields)).Ordered := by
  induction names generalizing fields with
  | nil => exact h
  | cons name rest ih =>
      obtain ⟨hascending, hall⟩ := ordered_object_iff.mp h
      cases rest with
      | nil =>
          refine ordered_object_iff.mpr ⟨hascending.alter _ _, ?_⟩
          exact forall_mem_alter hall name fun _ _ => hv
      | cons next rest =>
          refine ordered_object_iff.mpr ⟨hascending.alter _ _, ?_⟩
          exact forall_mem_alter hall name fun old hold => ih (merge.ordered_inner hold)

/-- What stands at the first name after placing. -/
def placedAt (v : Value) (rest : List String) (old : Option Value) : Value :=
  match rest with
  | [] => v
  | next :: rest => .object (insertUnder .deep v (next :: rest) (Merge.deep.inner old))

theorem insertUnder_cons (v : Value) (name : String) (rest : List String)
    (fields : Fields Value) :
    insertUnder .deep v (name :: rest) fields = alter name (placedAt v rest) fields := by
  cases rest <;> rfl

theorem placedAt_of_ne_nil (v : Value) {rest : List String} (h : rest ≠ []) (old : Option Value) :
    placedAt v rest old = .object (insertUnder .deep v rest (Merge.deep.inner old)) := by
  obtain ⟨next, rest, rfl⟩ := List.exists_cons_of_ne_nil h
  rfl

/-! ### The objects on the way

Stated by recursion on the names, since it is the way of the placement and not the shape
of the value that counts.
-/

/-- Whether the objects that are entered under these names list their entries by ascending key. -/
def AscendingAlong : List String → Fields Value → Prop
  | [], _ => True
  | name :: rest, fields =>
    Ascending fields ∧ AscendingAlong rest (Merge.deep.inner ((Value.object fields).field? name))

variable {fields : Fields Value} {v : Value}

theorem ascendingAlong_of_ordered (h : (Value.object fields).Ordered) (names : List String) :
    AscendingAlong names fields := by
  induction names generalizing fields with
  | nil => trivial
  | cons name rest ih =>
      refine ⟨(ordered_object_iff.mp h).1, ih (Merge.ordered_inner .deep fun u hu => ?_)⟩
      exact h.field? hu

/-! ### What keys lead to after placing

Keys are related to the names in one of three ways: below them, above them, or apart
from both.
-/

/-- At its place and below it stands the value. -/
theorem at?_insertUnder_append {names : List String} (h : AscendingAlong names fields)
    (hne : names ≠ []) (more : List String) :
    (Value.object (insertUnder .deep v names fields)).at? (names ++ more) = v.at? more := by
  induction names generalizing fields with
  | nil => exact absurd rfl hne
  | cons name rest ih =>
      rw [insertUnder_cons, List.cons_append, at?_cons, field?_alter_self h.1, Option.bind_some]
      cases rest with
      | nil => rfl
      | cons next rest => exact ih h.2 (List.cons_ne_nil _ _)

/-- Above its place there are objects. -/
theorem exists_object_insertUnder (h : (Value.object fields).Ordered) {names keys : List String}
    (hfront : keys <+: names) (hne : keys ≠ names) :
    ∃ others, (Value.object (insertUnder .deep v names fields)).at? keys =
      some (.object others) := by
  induction keys generalizing names fields with
  | nil => exact ⟨_, rfl⟩
  | cons key rest ih =>
      obtain ⟨more, rfl⟩ := hfront
      have hascending := (ordered_object_iff.mp h).1
      rw [List.cons_append, insertUnder_cons, at?_cons, field?_alter_self hascending,
        Option.bind_some]
      have hmore : more ≠ [] := by
        rintro rfl
        exact hne (List.append_nil _).symm
      obtain ⟨next, more', hnext⟩ := List.exists_cons_of_ne_nil
        (List.append_ne_nil_of_right_ne_nil rest hmore)
      rw [hnext]
      refine ih (Merge.ordered_inner .deep fun u hu => h.field? hu) ⟨more, hnext⟩ ?_
      intro heq
      rw [← hnext] at heq
      exact hmore (List.self_eq_append_right.mp heq)

/-- Beside its place nothing changes. -/
theorem at?_insertUnder_of_apart {names keys : List String} (h : AscendingAlong names fields)
    (hbelow : ¬names <+: keys) (habove : ¬keys <+: names) :
    (Value.object (insertUnder .deep v names fields)).at? keys =
      (Value.object fields).at? keys := by
  induction names generalizing keys fields with
  | nil => exact absurd List.nil_prefix hbelow
  | cons name rest ih =>
      cases keys with
      | nil => exact absurd List.nil_prefix habove
      | cons key more =>
          rw [insertUnder_cons, at?_cons, at?_cons]
          by_cases hkey : key = name
          · subst hkey
            rw [List.prefix_cons_inj] at hbelow habove
            have hrest : rest ≠ [] := by
              rintro rfl
              exact hbelow List.nil_prefix
            have hmore : more ≠ [] := by
              rintro rfl
              exact habove List.nil_prefix
            rw [field?_alter_self h.1, Option.bind_some, placedAt_of_ne_nil v hrest,
              ih h.2 hbelow habove, Merge.at?_inner _ hmore]
          · rw [field?_alter_of_ne h.1 hkey]

/-- Placing what is there already changes nothing. -/
theorem insertUnder_self (h : (Value.object fields).Ordered) {names : List String}
    (hne : names ≠ []) (hv : (Value.object fields).at? names = some v) :
    insertUnder .deep v names fields = fields := by
  induction names generalizing fields with
  | nil => exact absurd rfl hne
  | cons name rest ih =>
      have hascending := (ordered_object_iff.mp h).1
      obtain ⟨inner, hinner, hrest⟩ := Option.bind_eq_some_iff.mp hv
      have hlookup : fields.lookup name = some inner := by
        rw [← field?_of_ascending hascending, hinner]
      rw [insertUnder_cons]
      refine alter_eq_self hascending hlookup ?_
      cases rest with
      | nil => exact (Option.some.inj hrest).symm
      | cons next rest =>
          cases inner with
          | object others =>
              exact congrArg Value.object (ih (h.field? hinner) (List.cons_ne_nil _ _) hrest)
          | null | bool _ | integer _ | float _ | string _ | array _ =>
              simp [at?, Value.field?] at hrest

end Fields

end FieldQuery

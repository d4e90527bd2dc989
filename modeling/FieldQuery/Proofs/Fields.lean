/-
Entries and their look-ups.

Everything that is done with the entries of an object can be said by what stands at each key: one
alteration changes what stands at its own key, and bringing entries in order keeps the last of those
with a key.  What makes this enough is that ascending entries are determined by their look-ups,
`eq_of_lookup`.  Two lists of entries that were made in different ways, one entry at a time or all
at once, are therefore never compared entry by entry.

What a look-up finds in a list that is not ascending depends on the end from which it starts.  An
object whose entries have not been brought in order answers with the last one of a key, so its list
is reversed before anything is looked up in it.
-/
import FieldQuery.Fields
import Mathlib.Data.List.Sort
import Mathlib.Data.String.Basic

namespace FieldQuery.Fields

variable {α β : Type} {entries others : List (String × α)} {fields : Fields α}

/-! ### Entries and what is found

An entry is found by its key if the keys are different, and keys that ascend are. -/

theorem mem_of_lookup {entries : List (String × α)} {key : String} {a : α}
    (h : entries.lookup key = some a) : (key, a) ∈ entries := by
  obtain ⟨front, back, rfl, -⟩ := List.lookup_eq_some_iff.mp h
  exact List.mem_append_right _ List.mem_cons_self

/-- Among different keys what is found at a key is its entry. -/
theorem lookup_eq_some_iff (h : (entries.map Prod.fst).Nodup) {key : String} {a : α} :
    entries.lookup key = some a ↔ (key, a) ∈ entries := by
  refine ⟨mem_of_lookup, fun hmem => ?_⟩
  induction entries with
  | nil => exact absurd hmem List.not_mem_nil
  | cons entry rest ih =>
      obtain ⟨hfresh, hrest⟩ := List.nodup_cons.mp h
      rcases List.mem_cons.mp hmem with rfl | hmem
      · exact List.lookup_cons_self
      · have hne : key ≠ entry.1 :=
          fun heq => hfresh (heq ▸ List.mem_map_of_mem (f := Prod.fst) hmem)
        rw [List.lookup_cons, beq_false_of_ne hne]
        exact ih hrest hmem

theorem Ascending.keys {fields : Fields α} (h : Ascending fields) :
    (fields.map Prod.fst).Pairwise (· < ·) :=
  List.pairwise_map.mpr h

theorem lookup_of_mem (h : Ascending fields) {key : String} {a : α} (hmem : (key, a) ∈ fields) :
    fields.lookup key = some a :=
  (lookup_eq_some_iff (h.keys.imp fun hless => ne_of_lt hless)).mpr hmem

/-- A key is found exactly if there is an entry with it. -/
theorem isSome_lookup_iff (entries : List (String × α)) (key : String) :
    (entries.lookup key).isSome = true ↔ key ∈ entries.map Prod.fst := by
  rw [List.lookup_isSome_iff, List.mem_map]
  constructor
  · rintro ⟨entry, hentry, hkey⟩
    exact ⟨entry, hentry, (beq_iff_eq.mp hkey).symm⟩
  · rintro ⟨entry, hentry, rfl⟩
    exact ⟨entry, hentry, beq_self_eq_true _⟩

/-- In ascending entries it does not matter from which end a key is looked up. -/
theorem lookup_reverse {fields : Fields α} (h : Ascending fields) (key : String) :
    fields.reverse.lookup key = fields.lookup key := by
  cases hlookup : fields.reverse.lookup key with
  | some a => exact (lookup_of_mem h (List.mem_reverse.mp (mem_of_lookup hlookup))).symm
  | none =>
      symm
      rw [List.lookup_eq_none_iff] at hlookup ⊢
      intro entry hentry
      exact hlookup entry (List.mem_reverse.mpr hentry)

/-! ### Lists with the same look-ups -/

/-- Ascending entries are determined by their look-ups. -/
theorem eq_of_lookup {fields others : Fields α} (h : Ascending fields) (h' : Ascending others)
    (hlookup : ∀ key, fields.lookup key = others.lookup key) : fields = others := by
  have hmem : ∀ {l m : Fields α}, Ascending l → (∀ key, l.lookup key = m.lookup key) →
      ∀ entry ∈ l, entry ∈ m := by
    intro l m hl hsame entry hentry
    have hfound : l.lookup entry.1 = some entry.2 := lookup_of_mem hl hentry
    rw [hsame] at hfound
    exact mem_of_lookup hfound
  have hirrefl : Std.Irrefl fun a b : String × α => a.1 < b.1 := ⟨fun a => String.lt_irrefl a.1⟩
  refine List.Pairwise.eq_of_mem_iff h h' fun entry => ⟨hmem h hlookup entry, ?_⟩
  exact hmem h' (fun key => (hlookup key).symm) entry

/-- Only what an alteration makes of what stands at the key matters. -/
theorem alter_congr (h : Ascending fields) {key : String}
    {f g : Option α → α} (hsame : f (fields.lookup key) = g (fields.lookup key)) :
    alter key f fields = alter key g fields := by
  refine eq_of_lookup (h.alter key f) (h.alter key g) fun k => ?_
  by_cases hkey : k = key
  · rw [hkey, lookup_alter_self key f h, lookup_alter_self key g h, hsame]
  · rw [lookup_alter_of_ne f hkey, lookup_alter_of_ne g hkey]

/-- An alteration that gives back what stands at a key changes nothing. -/
theorem alter_eq_self (h : Ascending fields) {key : String} {a : α}
    (hlookup : fields.lookup key = some a) {f : Option α → α} (hf : f (some a) = a) :
    alter key f fields = fields := by
  refine eq_of_lookup (h.alter key f) h fun k => ?_
  by_cases hkey : k = key
  · rw [hkey, lookup_alter_self key f h, hlookup, hf]
  · exact lookup_alter_of_ne f hkey fields

/-- Alterations at two keys can be made in either order. -/
theorem alter_comm (h : Ascending fields) {key key' : String} (hne : key ≠ key')
    (f g : Option α → α) :
    alter key f (alter key' g fields) = alter key' g (alter key f fields) := by
  have hf := h.alter key f
  have hg := h.alter key' g
  refine eq_of_lookup (hg.alter key f) (hf.alter key' g) fun k => ?_
  by_cases hkey : k = key
  · rw [hkey, lookup_alter_self key f hg, lookup_alter_of_ne g hne, lookup_alter_of_ne g hne,
      lookup_alter_self key f h]
  · rw [lookup_alter_of_ne f hkey]
    by_cases hkey' : k = key'
    · rw [hkey', lookup_alter_self key' g h, lookup_alter_self key' g hf,
        lookup_alter_of_ne f hne.symm]
    · rw [lookup_alter_of_ne g hkey', lookup_alter_of_ne g hkey', lookup_alter_of_ne f hkey]

/-- Two alterations at one key are one alteration. -/
theorem alter_alter (h : Ascending fields) (key : String) (f g : Option α → α) :
    alter key f (alter key g fields) = alter key (fun old => f (some (g old))) fields := by
  have hg := h.alter key g
  refine eq_of_lookup (hg.alter key f) (h.alter key _) fun k => ?_
  by_cases hkey : k = key
  · rw [hkey, lookup_alter_self key f hg, lookup_alter_self key g h, lookup_alter_self key _ h]
  · rw [lookup_alter_of_ne f hkey, lookup_alter_of_ne g hkey, lookup_alter_of_ne _ hkey]

/-! ### Entries that are brought in order

`ofList` puts the last entry in first and leaves an entry alone that is there already.  Putting the
first one in first and replacing what is there, as `insertAll` does, comes to the same. -/

/-- Of several entries with one key the last is found. -/
theorem lookup_ofList (entries : List (String × α)) (key : String) :
    (ofList entries).lookup key = entries.reverse.lookup key := by
  induction entries with
  | nil => rfl
  | cons entry rest ih =>
      obtain ⟨k, a⟩ := entry
      show (alter k (fun old => old.getD a) (ofList rest)).lookup key = _
      rw [List.reverse_cons, List.lookup_append, ← ih, List.lookup_cons, List.lookup_nil]
      by_cases hkey : key = k
      · rw [hkey, lookup_alter_self k _ (ascending_ofList rest), beq_self_eq_true]
        cases (ofList rest).lookup k <;> rfl
      · rw [lookup_alter_of_ne _ hkey, beq_false_of_ne hkey]
        exact Option.or_none.symm

theorem mem_keys_ofList (entries : List (String × α)) (key : String) :
    key ∈ (ofList entries).map Prod.fst ↔ key ∈ entries.map Prod.fst := by
  rw [← isSome_lookup_iff, lookup_ofList, isSome_lookup_iff, List.map_reverse, List.mem_reverse]

/-- The last of the entries with a key counts. -/
theorem lookup_ofList_of_last {front back : List (String × α)} {key : String} (a : α)
    (hback : ∀ entry ∈ back, entry.1 ≠ key) :
    (ofList (front ++ (key, a) :: back)).lookup key = some a := by
  have hnone : back.reverse.lookup key = none := by
    rw [List.lookup_eq_none_iff]
    intro entry hentry
    exact bne_iff_ne.mpr (hback entry (List.mem_reverse.mp hentry)).symm
  rw [lookup_ofList, List.reverse_append, List.reverse_cons, List.lookup_append,
    List.lookup_append, hnone, List.lookup_cons_self]
  rfl

/-- Puts entries in, one after the other, each in place of any other with its key. -/
def insertAll (entries : List (String × α)) (fields : Fields α) : Fields α :=
  entries.foldl (fun fields entry => insert entry.1 entry.2 fields) fields

theorem ascending_insertAll (entries : List (String × α)) {fields : Fields α}
    (h : Ascending fields) : Ascending (insertAll entries fields) := by
  induction entries generalizing fields with
  | nil => exact h
  | cons entry rest ih => exact ih (h.alter _ _)

/-- The last of the entries with a key counts, and without one what was there. -/
theorem lookup_insertAll (entries : List (String × α)) {fields : Fields α} (h : Ascending fields)
    (key : String) :
    (insertAll entries fields).lookup key =
      (entries.reverse.lookup key).or (fields.lookup key) := by
  induction entries generalizing fields with
  | nil => rfl
  | cons entry rest ih =>
      obtain ⟨k, a⟩ := entry
      have hkept : Ascending (insert k a fields) := h.alter _ _
      show (insertAll rest (insert k a fields)).lookup key = _
      rw [ih hkept, List.reverse_cons, List.lookup_append, Option.or_assoc]
      refine congrArg _ ?_
      by_cases hkey : key = k
      · rw [hkey, insert, lookup_alter_self k _ h, List.lookup_cons_self, Option.some_or]
      · rw [insert, lookup_alter_of_ne _ hkey, List.lookup_cons, beq_false_of_ne hkey,
          List.lookup_nil, Option.none_or]

theorem insertAll_nil (entries : List (String × α)) : insertAll entries [] = ofList entries := by
  have hempty : Ascending ([] : Fields α) := List.Pairwise.nil
  refine eq_of_lookup (ascending_insertAll entries hempty) (ascending_ofList entries) fun key => ?_
  rw [lookup_insertAll entries hempty, lookup_ofList, List.lookup_nil, Option.or_none]

/-- Entries with different keys come into one order from any other. -/
theorem ofList_perm (h : (entries.map Prod.fst).Nodup) (hperm : entries.Perm others) :
    ofList entries = ofList others := by
  have hreverse : entries.reverse.Perm others.reverse :=
    (List.reverse_perm entries).trans (hperm.trans (List.reverse_perm others).symm)
  have hnodup : (entries.reverse.map Prod.fst).Nodup :=
    (((List.reverse_perm entries).map Prod.fst).nodup_iff).mpr h
  have hnodup' : (others.reverse.map Prod.fst).Nodup :=
    ((hreverse.map Prod.fst).nodup_iff).mp hnodup
  refine eq_of_lookup (ascending_ofList entries) (ascending_ofList others) fun key => ?_
  rw [lookup_ofList, lookup_ofList]
  refine Option.ext fun a => ?_
  rw [lookup_eq_some_iff hnodup, lookup_eq_some_iff hnodup']
  exact hreverse.mem_iff

theorem ofList_of_ascending {fields : Fields α} (h : Ascending fields) :
    ofList fields = fields := by
  refine eq_of_lookup (ascending_ofList fields) h fun key => ?_
  rw [lookup_ofList, lookup_reverse h]

/-! ### The values of entries

A property of values passes through, and so does a change that is made to all of them. -/

/-- What holds of all values goes on to hold if it holds of the one that is put in. -/
theorem forall_mem_alter {P : α → Prop} {fields : Fields α} (h : ∀ entry ∈ fields, P entry.2)
    (key : String) {f : Option α → α} (hf : ∀ old, (∀ a ∈ old, P a) → P (f old)) :
    ∀ entry ∈ alter key f fields, P entry.2 := by
  induction fields with
  | nil =>
      intro entry hentry
      obtain rfl := List.mem_singleton.mp hentry
      exact hf none (by simp)
  | cons head rest ih =>
      obtain ⟨k, a⟩ := head
      have hrest : ∀ entry ∈ rest, P entry.2 :=
        fun entry hentry => h entry (List.mem_cons_of_mem _ hentry)
      have hhead : P a := h (k, a) List.mem_cons_self
      intro entry hentry
      unfold alter at hentry
      split at hentry
      · rcases List.mem_cons.mp hentry with rfl | hmem
        · exact hf none (by simp)
        · exact h entry hmem
      · split at hentry
        · rcases List.mem_cons.mp hentry with rfl | hmem
          · exact hf (some a) (by simpa using hhead)
          · exact hrest entry hmem
        · rcases List.mem_cons.mp hentry with rfl | hmem
          · exact hhead
          · exact ih hrest entry hmem

/-- What holds of all values holds of them in order. -/
theorem forall_mem_ofList {P : α → Prop} {entries : List (String × α)}
    (h : ∀ entry ∈ entries, P entry.2) : ∀ entry ∈ ofList entries, P entry.2 := by
  induction entries with
  | nil => simp [ofList]
  | cons entry rest ih =>
      have hrest := ih fun e he => h e (List.mem_cons_of_mem _ he)
      refine forall_mem_alter hrest entry.1 fun old hold => ?_
      cases old with
      | none => exact h entry List.mem_cons_self
      | some a => exact hold a rfl

theorem lookup_map (f : α → β) (entries : List (String × α)) (key : String) :
    (entries.map (Prod.map id f)).lookup key = (entries.lookup key).map f := by
  induction entries with
  | nil => rfl
  | cons entry rest ih =>
      rw [List.map_cons, List.lookup_cons, List.lookup_cons, ih]
      show (match key == entry.1 with | true => _ | false => _) = _
      cases key == entry.1 <;> rfl

theorem map_alter (f : α → β) {g : Option α → α} {g' : Option β → β}
    (h : ∀ old, f (g old) = g' (old.map f)) (key : String) (fields : Fields α) :
    (alter key g fields).map (Prod.map id f) = alter key g' (fields.map (Prod.map id f)) := by
  induction fields with
  | nil => simp [alter, h none]
  | cons entry rest ih =>
      obtain ⟨k, a⟩ := entry
      rw [List.map_cons, Prod.map_apply, id_eq, alter, alter]
      split
      · simp [h none]
      · split
        · simp [h (some a)]
        · rw [List.map_cons, ih]
          rfl

/-- Values can be changed before or after their entries are brought in order. -/
theorem map_ofList (f : α → β) (entries : List (String × α)) :
    (ofList entries).map (Prod.map id f) = ofList (entries.map (Prod.map id f)) := by
  induction entries with
  | nil => rfl
  | cons entry rest ih =>
      have hgetD : ∀ old : Option α, f (old.getD entry.2) = (old.map f).getD (f entry.2) := by
        intro old
        cases old <;> rfl
      have hinsert : (insertIfNew entry.1 entry.2 (ofList rest)).map (Prod.map id f) =
          insertIfNew entry.1 (f entry.2) ((ofList rest).map (Prod.map id f)) :=
        map_alter f hgetD entry.1 (ofList rest)
      rw [ih] at hinsert
      exact hinsert

end FieldQuery.Fields

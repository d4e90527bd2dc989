/-
Entries by key.

`Fields α` is a list of entries in ascending order of their keys, compared by code
points; each key occurs once.  `alter` is the one operation that changes such a list,
and the others say what it puts in place of an entry that is already there.  `ofList`
brings entries in any order into this form, and of several with one key it keeps the
last.

The order is a property, `Ascending`, and not part of the type, because a value can hold
entries in any order.  Every operation keeps it, so whoever starts from `[]` has it.

A lookup is `List.lookup` and not a search that stops at the first greater key.  In a
list in order the two give the same, and the library has the lemmas about the first.
-/

namespace FieldQuery

/-- Entries in ascending order of their keys. -/
abbrev Fields (α : Type) := List (String × α)

namespace Fields

variable {α β : Type}

/-- Every key is less than all keys after it. -/
def Ascending (fields : Fields α) : Prop :=
  fields.Pairwise fun a b => a.1 < b.1

/-- Puts `f` of what stands at the key, if anything does, at the key. -/
def alter (key : String) (f : Option α → α) : Fields α → Fields α
  | [] => [(key, f none)]
  | (k, a) :: rest =>
    if key < k then (key, f none) :: (k, a) :: rest
    else if key = k then (k, f (some a)) :: rest
    else (k, a) :: alter key f rest

/-- Puts a value at a key in place of any other. -/
def insert (key : String) (a : α) (fields : Fields α) : Fields α :=
  alter key (fun _ => a) fields

/-- Puts a value at a key where there is none. -/
def insertIfNew (key : String) (a : α) (fields : Fields α) : Fields α :=
  alter key (fun old => old.getD a) fields

/-- The entries in ascending order; of several with one key the last counts. -/
def ofList (entries : List (String × α)) : Fields α :=
  entries.foldr (fun entry fields => insertIfNew entry.1 entry.2 fields) []

/-! ### Looking up a key -/

/-- What stands at a key is what `alter` puts there. -/
theorem lookup_alter_self (key : String) (f : Option α → α) {fields : Fields α}
    (h : Ascending fields) : (alter key f fields).lookup key = some (f (fields.lookup key)) := by
  induction fields with
  | nil => simp [alter]
  | cons entry rest ih =>
    obtain ⟨k, a⟩ := entry
    obtain ⟨hk, hrest⟩ := List.pairwise_cons.mp h
    unfold alter
    by_cases hlt : key < k
    · have habsent : ((k, a) :: rest).lookup key = none := by
        rw [List.lookup_eq_none_iff]
        intro entry hentry
        have hle : key < entry.1 := by
          rcases List.mem_cons.mp hentry with rfl | hmem
          · exact hlt
          · exact String.lt_trans hlt (hk entry hmem)
        exact bne_iff_ne.mpr fun heq => String.lt_irrefl entry.1 (heq ▸ hle)
      rw [if_pos hlt, List.lookup_cons_self, habsent]
    · rw [if_neg hlt]
      by_cases heq : key = k
      · rw [if_pos heq, heq, List.lookup_cons_self, List.lookup_cons_self]
      · rw [if_neg heq, List.lookup_cons, List.lookup_cons, beq_false_of_ne heq]
        exact ih hrest

/-- What stands at any other key stays. -/
theorem lookup_alter_of_ne {key k : String} (f : Option α → α) (hne : k ≠ key)
    (fields : Fields α) : (alter key f fields).lookup k = fields.lookup k := by
  induction fields with
  | nil => simp [alter, List.lookup_cons, beq_false_of_ne hne]
  | cons entry rest ih =>
    obtain ⟨k', a⟩ := entry
    unfold alter
    by_cases hlt : key < k'
    · rw [if_pos hlt, List.lookup_cons, beq_false_of_ne hne]
    · rw [if_neg hlt]
      by_cases heq : key = k'
      · rw [if_pos heq, List.lookup_cons, List.lookup_cons, beq_false_of_ne (heq ▸ hne)]
      · rw [if_neg heq, List.lookup_cons, List.lookup_cons, ih]

/-! ### Order -/

/-- The keys after an alteration are the keys before it and the altered key. -/
theorem key_of_mem_alter {key : String} {f : Option α → α} {fields : Fields α}
    {entry : String × α} (h : entry ∈ alter key f fields) :
    entry.1 = key ∨ ∃ old ∈ fields, old.1 = entry.1 := by
  induction fields with
  | nil =>
    simp only [alter, List.mem_singleton] at h
    exact .inl (h ▸ rfl)
  | cons head rest ih =>
    obtain ⟨k, a⟩ := head
    unfold alter at h
    by_cases hlt : key < k
    · rw [if_pos hlt] at h
      rcases List.mem_cons.mp h with rfl | hmem
      · exact .inl rfl
      · exact .inr ⟨entry, hmem, rfl⟩
    · rw [if_neg hlt] at h
      by_cases heq : key = k
      · rw [if_pos heq] at h
        rcases List.mem_cons.mp h with rfl | hmem
        · exact .inl heq.symm
        · exact .inr ⟨entry, List.mem_cons_of_mem _ hmem, rfl⟩
      · rw [if_neg heq] at h
        rcases List.mem_cons.mp h with rfl | hmem
        · exact .inr ⟨(k, a), List.mem_cons_self, rfl⟩
        · rcases ih hmem with hkey | ⟨old, hold, hsame⟩
          · exact .inl hkey
          · exact .inr ⟨old, List.mem_cons_of_mem _ hold, hsame⟩

/-- Alterations keep the order. -/
theorem Ascending.alter {fields : Fields α} (h : Ascending fields) (key : String)
    (f : Option α → α) : Ascending (Fields.alter key f fields) := by
  induction fields with
  | nil => exact List.pairwise_singleton _ _
  | cons head rest ih =>
    obtain ⟨k, a⟩ := head
    obtain ⟨hk, hrest⟩ := List.pairwise_cons.mp h
    unfold Fields.alter
    by_cases hlt : key < k
    · rw [if_pos hlt]
      refine List.pairwise_cons.mpr ⟨fun entry hentry => ?_, h⟩
      rcases List.mem_cons.mp hentry with rfl | hmem
      · exact hlt
      · exact String.lt_trans hlt (hk entry hmem)
    · rw [if_neg hlt]
      by_cases heq : key = k
      · rw [if_pos heq]
        exact List.pairwise_cons.mpr ⟨hk, hrest⟩
      · rw [if_neg heq]
        refine List.pairwise_cons.mpr ⟨fun entry hentry => ?_, ih hrest⟩
        rcases key_of_mem_alter hentry with hkey | ⟨old, hold, hsame⟩
        · exact hkey ▸ Std.lt_of_le_of_ne (String.not_lt.mp hlt) (Ne.symm heq)
        · exact hsame ▸ hk old hold

theorem ascending_ofList (entries : List (String × α)) : Ascending (ofList entries) := by
  induction entries with
  | nil => exact List.Pairwise.nil
  | cons entry rest ih => exact ih.alter _ _

end Fields

end FieldQuery

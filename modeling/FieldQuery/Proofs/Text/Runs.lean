/-
Runs of characters.

Both scanners of this program, the one of queries and the one of JSON text, take characters for as
long as they pass a test.  What they take is settled by the first character that fails, so it does
not depend on anything behind that character: the run of a stretch of text is the same in front of
every rest that stops at once.
-/
import Mathlib.Data.List.TakeWhile

namespace FieldQuery.Text

/-- What stops at once adds nothing to what is taken in front of it. -/
theorem takeWhile_append_stop {p : Char → Bool} (cs : List Char) {rest : List Char}
    (hrest : ∀ c ∈ rest.head?, p c = false) : (cs ++ rest).takeWhile p = cs.takeWhile p := by
  induction cs with
  | nil =>
      cases rest with
      | nil => rfl
      | cons c rest => simp [hrest c rfl]
  | cons c cs ih => rw [List.cons_append, List.takeWhile_cons, List.takeWhile_cons, ih]

theorem dropWhile_append_stop {p : Char → Bool} (cs : List Char) {rest : List Char}
    (hrest : ∀ c ∈ rest.head?, p c = false) :
    (cs ++ rest).dropWhile p = cs.dropWhile p ++ rest := by
  induction cs with
  | nil =>
      cases rest with
      | nil => rfl
      | cons c rest => simp [hrest c rfl]
  | cons c cs ih =>
      rw [List.cons_append, List.dropWhile_cons, List.dropWhile_cons, ih]
      split <;> rfl

theorem takeWhile_stop {p : Char → Bool} {piece rest : List Char} (h : ∀ c ∈ piece, p c = true)
    (hrest : ∀ c ∈ rest.head?, p c = false) : (piece ++ rest).takeWhile p = piece := by
  rw [takeWhile_append_stop piece hrest, List.takeWhile_eq_self_iff.mpr h]

theorem dropWhile_stop {p : Char → Bool} {piece rest : List Char} (h : ∀ c ∈ piece, p c = true)
    (hrest : ∀ c ∈ rest.head?, p c = false) : (piece ++ rest).dropWhile p = rest := by
  rw [dropWhile_append_stop piece hrest, List.dropWhile_eq_nil_iff.mpr h, List.nil_append]

/-- What holds of the first character of both holds of the first character of all. -/
theorem forall_head_append {p : Char → Prop} {cs ds : List Char} (hcs : ∀ c ∈ cs.head?, p c)
    (hds : ∀ c ∈ ds.head?, p c) : ∀ c ∈ (cs ++ ds).head?, p c := by
  cases cs with
  | nil => exact hds
  | cons first rest => exact hcs

end FieldQuery.Text

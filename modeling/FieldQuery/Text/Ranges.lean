/-
Sets of characters as ascending lists of closed ranges of code points.

Membership stops at the first range that begins above the code point, so the common
characters, which stand early in every table, are found quickly.  That it is membership
rests on the order of the ranges: `contains_iff` assumes it, and for every table it is
checked by evaluation.
-/

namespace FieldQuery

/-- Closed ranges of code points. -/
abbrev Ranges := List (Nat × Nat)

namespace Ranges

/-- Whether a code point lies in one of the ranges of an ascending list. -/
def contains : Ranges → Nat → Bool
  | [], _ => false
  | (low, high) :: rest, n =>
    if n < low then false else if n ≤ high then true else contains rest n

/-- Each range is not empty and ends before the next begins. -/
def ascending : Ranges → Bool
  | [] => true
  | [(low, high)] => decide (low ≤ high)
  | (low, high) :: (low', high') :: rest =>
    decide (low ≤ high ∧ high < low') && ascending ((low', high') :: rest)

section

variable {low high : Nat} {rest : Ranges}

theorem le_of_ascending (h : ascending ((low, high) :: rest) = true) : low ≤ high := by
  cases rest <;> simp_all [ascending]

theorem ascending_tail (h : ascending ((low, high) :: rest) = true) : rest.ascending = true := by
  cases rest with
  | nil => rfl
  | cons next rest =>
      simp only [ascending, Bool.and_eq_true] at h
      exact h.2

/-- What follows a range lies above it. -/
theorem lt_of_mem_tail (h : ascending ((low, high) :: rest) = true) {range : Nat × Nat}
    (hrange : range ∈ rest) : high < range.1 := by
  induction rest generalizing low high with
  | nil => simp at hrange
  | cons next rest ih =>
      obtain ⟨low', high'⟩ := next
      have htail := ascending_tail h
      simp only [ascending, Bool.and_eq_true, decide_eq_true_eq] at h
      rcases List.mem_cons.mp hrange with rfl | hmem
      · exact h.1.2
      · have hle := le_of_ascending htail
        have hlt := ih htail hmem
        omega

end

/-- A code point is contained exactly when it lies in some range. -/
theorem contains_iff {ranges : Ranges} (h : ranges.ascending = true) (n : Nat) :
    ranges.contains n = true ↔ ∃ range ∈ ranges, range.1 ≤ n ∧ n ≤ range.2 := by
  induction ranges with
  | nil => simp [contains]
  | cons head rest ih =>
      obtain ⟨low, high⟩ := head
      unfold contains
      by_cases hlow : n < low
      · rw [if_pos hlow]
        have hle := le_of_ascending h
        constructor
        · intro hfalse
          exact absurd hfalse (by decide)
        · rintro ⟨range, hrange, hin, -⟩
          rcases List.mem_cons.mp hrange with rfl | hmem
          · omega
          · have hlt := lt_of_mem_tail h hmem
            omega
      · rw [if_neg hlow]
        by_cases hhigh : n ≤ high
        · rw [if_pos hhigh]
          exact ⟨fun _ => ⟨(low, high), List.mem_cons_self, by omega, hhigh⟩, fun _ => rfl⟩
        · rw [if_neg hhigh, ih (ascending_tail h)]
          constructor
          · rintro ⟨range, hrange, hin⟩
            exact ⟨range, List.mem_cons_of_mem _ hrange, hin⟩
          · rintro ⟨range, hrange, hin⟩
            rcases List.mem_cons.mp hrange with rfl | hmem
            · omega
            · exact ⟨range, hmem, hin⟩

end Ranges

end FieldQuery

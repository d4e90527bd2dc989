/-
Classes of characters.

A blank, a letter or digit of any script, and a digit of a number are told apart by the code point
alone.  The first two classes are tables of ranges, and every question about them is one about the
ranges that a code point lies in.  What the scanner needs is how the classes lie to one another: no
blank belongs to a word, so a blank ends one, and every digit belongs to a word, so a number that is
followed by a letter is not cut off from it.

What makes the first of these short to check is that there are few blanks: they are gone through one
by one.
-/
import FieldQuery.Text.Alphanumeric
import FieldQuery.Text.Blank
import Mathlib.Data.List.Basic

namespace FieldQuery.Text

theorem bounds_of_isDigit {c : Char} (h : c.isDigit = true) : 48 ≤ c.toNat ∧ c.toNat ≤ 57 := by
  simpa [Char.isDigit, UInt32.le_iff_toNat_le] using h

theorem bounds_of_isAlpha {c : Char} (h : c.isAlpha = true) : 65 ≤ c.toNat ∧ c.toNat ≤ 122 := by
  rcases Bool.or_eq_true_iff.mp h with hupper | hlower
  · have hbounds : 65 ≤ c.toNat ∧ c.toNat ≤ 90 := of_decide_eq_true hupper
    omega
  · obtain ⟨hlow, hhigh⟩ := Bool.and_eq_true_iff.mp hlower
    have hleast : 97 ≤ c.toNat := of_decide_eq_true hlow
    have hgreatest : c.toNat ≤ 122 := of_decide_eq_true hhigh
    omega

theorem isWord_of_isDigit {c : Char} (h : c.isDigit = true) : isWord c = true := by
  have halphanumeric : isAlphanumeric c = true :=
    isAlphanumeric_iff.mpr ⟨(0x30, 0x39), List.mem_cons_self, bounds_of_isDigit h⟩
  rw [isWord, halphanumeric, Bool.true_or]

theorem isWord_of_isBlank {c : Char} (h : isBlank c = true) : isWord c = false := by
  have hcodes : ∀ n ∈ blankRanges.flatMap fun range => List.range' range.1 (range.2 + 1 - range.1),
      alphanumericRanges.contains n = false ∧ n ≠ '_'.toNat := by
    decide +kernel
  obtain ⟨range, hrange, hlow, hhigh⟩ := isBlank_iff.mp h
  obtain ⟨hletter, hunderscore⟩ := hcodes c.toNat (List.mem_flatMap.mpr
    ⟨range, hrange, List.mem_range'_1.mpr ⟨hlow, by omega⟩⟩)
  have hne : c ≠ '_' := fun heq => hunderscore (heq ▸ rfl)
  simp [isWord, isAlphanumeric, hletter, hne]

end FieldQuery.Text

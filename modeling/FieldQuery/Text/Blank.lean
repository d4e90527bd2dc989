/-
Blank characters: the twenty-five code points with the Unicode property `White_Space`.
-/
import FieldQuery.Text.Ranges

namespace FieldQuery.Text

/-- The code points with the property `White_Space`. -/
def blankRanges : Ranges :=
  [ (0x9, 0xd), (0x20, 0x20), (0x85, 0x85), (0xa0, 0xa0), (0x1680, 0x1680), (0x2000, 0x200a),
    (0x2028, 0x2029), (0x202f, 0x202f), (0x205f, 0x205f), (0x3000, 0x3000) ]

theorem ascending_blankRanges : blankRanges.ascending = true := by decide +kernel

/-- Whether a character separates lexemes without belonging to one. -/
def isBlank (c : Char) : Bool := blankRanges.contains c.toNat

theorem isBlank_iff {c : Char} : isBlank c = true ↔
    ∃ range ∈ blankRanges, range.1 ≤ c.toNat ∧ c.toNat ≤ range.2 :=
  Ranges.contains_iff ascending_blankRanges c.toNat

end FieldQuery.Text

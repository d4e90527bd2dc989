/-
Integers in 64 bits.

An integer of 64 bits with sign lies between `-2 ^ 63` and `2 ^ 63 - 1`.  An integer
that does not is either refused, by `int64?`, or moved to the nearer end of the range,
by `nearestInt64`; nothing wraps around.
-/

namespace FieldQuery

/-- The 64-bit integer that equals an integer, if there is one. -/
def int64? (n : Int) : Option Int64 :=
  if -0x8000000000000000 ≤ n ∧ n < 0x8000000000000000 then some (Int64.ofInt n) else none

/-- An integer of 64 bits fits. -/
theorem int64?_toInt (n : Int64) : int64? n.toInt = some n := by
  have hlow := n.le_toInt
  have hhigh := n.toInt_lt
  rw [int64?, if_pos (by omega), Int64.ofInt_toInt]

/-- What fits is not changed. -/
theorem toInt_of_int64? {n : Int} {i : Int64} (h : int64? n = some i) : i.toInt = n := by
  unfold int64? at h
  split at h
  · rename_i hrange
    obtain rfl := Option.some.inj h
    exact Int64.toInt_ofInt_of_le (by omega) (by omega)
  · simp at h

/-- The 64-bit integer nearest to an integer. -/
def nearestInt64 (n : Int) : Int64 :=
  if n < -0x8000000000000000 then Int64.minValue
  else if 0x8000000000000000 ≤ n then Int64.maxValue
  else Int64.ofInt n

end FieldQuery

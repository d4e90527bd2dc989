/-
Powers of natural numbers.
-/

namespace FieldQuery

/-- `base` to the power `n`, by the instance of natural numbers alone: what it unfolds to does
not depend on the instances for powers in other structures that happen to be in scope. -/
def power (base n : Nat) : Nat := @HPow.hPow Nat Nat Nat (@instHPow Nat Nat instPowNat) base n

@[simp] theorem power_zero (base : Nat) : power base 0 = 1 := rfl

theorem power_succ (base n : Nat) : power base (n + 1) = power base n * base := rfl

theorem power_pos {base : Nat} (h : 0 < base) (n : Nat) : 0 < power base n := Nat.pow_pos h

end FieldQuery

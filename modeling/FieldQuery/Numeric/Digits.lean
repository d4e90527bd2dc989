/-
Decimal digits.

Numbers are written without leading zeros, and a negative integer has a minus sign in
front.  Reading digits back gives the number, whatever zeros stand in front.

Writing and reading are those of the library, for base ten.
-/

namespace FieldQuery.Digits

/-- The decimal digits of a natural number. -/
def ofNat (n : Nat) : List Char := Nat.toDigits 10 n

/-- The decimal digits of an integer after its sign. -/
def ofInt (n : Int) : List Char :=
  if n < 0 then '-' :: ofNat n.natAbs else ofNat n.natAbs

/-- The number that decimal digits stand for. -/
def toNat (digits : List Char) : Nat := Nat.ofDigitChars 10 digits 0

/-- The integer that decimal digits after a sign stand for. -/
def toInt (negative : Bool) (digits : List Char) : Int :=
  if negative then -(toNat digits : Int) else toNat digits

theorem toNat_ofNat (n : Nat) : toNat (ofNat n) = n := Nat.ofDigitChars_ten_toDigits

theorem isDigit_of_mem_ofNat {n : Nat} {c : Char} (h : c ∈ ofNat n) : c.isDigit = true :=
  Nat.isDigit_of_mem_toDigits (by decide) (by decide) h

/-- An integer is written as a sign or digit and more digits. -/
theorem ofInt_eq_cons (n : Int) : ∃ first digits, ofInt n = first :: digits ∧
    (first = '-' ∨ first.isDigit = true) ∧ ∀ c ∈ digits, c.isDigit = true := by
  unfold ofInt
  split
  · exact ⟨'-', ofNat n.natAbs, rfl, .inl rfl, fun _ => isDigit_of_mem_ofNat⟩
  · cases hdigits : ofNat n.natAbs with
    | nil => exact absurd hdigits Nat.toDigits_ne_nil
    | cons first digits =>
        have hall : ∀ c ∈ first :: digits, c.isDigit = true := by
          rw [← hdigits]
          exact fun _ => isDigit_of_mem_ofNat
        exact ⟨first, digits, rfl, .inr (hall first List.mem_cons_self),
          fun c hc => hall c (List.mem_cons_of_mem _ hc)⟩

end FieldQuery.Digits

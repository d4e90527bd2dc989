/-
Comparing a value that is written and read again.

The text of a value does not say which of its whole numbers are floats, and the kind of the left
value decides how two values are compared.  `drifts` says when they compare otherwise once they
are read back: if a float on the left is equal to the other value and its integer is not, or the
other way round, or if a float on the right is rounded toward zero to another number than it is
read back as and the integer on the left lies there.

What makes it enough to look at equality is that reading back never turns an order round, so two
values that compare otherwise are equal before or afterwards.  This needs floats that are stable,
for which `compare?_reread_iff` says that `drifts` is exact.  A float that is not is read back as
another number, and then there is nothing to be said short of comparing that number.
-/
import FieldQuery.Proofs.Value.Reread
import FieldQuery.Value.Compare

namespace FieldQuery

namespace Value

variable {x y : Double} {a b b' : Value}

theorem rereadFloat_cases (hx : x.Stable) :
    (x.reread? = none ∧ rereadFloat x = .float x) ∨
      ∃ i, x.reread? = some i ∧ rereadFloat x = .integer i := by
  cases hreread : x.reread? with
  | none => exact .inl ⟨rfl, rereadFloat_of_stable hx hreread⟩
  | some i => exact .inr ⟨i, rfl, by rw [rereadFloat, hreread]⟩

/-- Whether two values compare otherwise once the left one is read back and the right one has
become `b'`. -/
def drifts (a b b' : Value) : Bool :=
  match a, b, b' with
  | .float x, .float y, .float _ =>
    x.reread?.any fun i => (x.compare? y == some .eq) != (i == y.toInt64)
  | .float x, .integer n, _ =>
    x.reread?.any fun i => x.compare? (Double.ofInt n.toInt) == some .eq && i != n
  | .integer n, .float y, .integer j =>
    compare n.toInt y.toInt64.toInt != compare n.toInt j.toInt
  | _, _, _ => false

/-- What may stand on the right side after reading back: a literal stays as it is, and no literal
is NaN; what was read from a text is read back. -/
def Kept (b b' : Value) : Prop :=
  (b' = b ∧ ∀ y, b = .float y → y.isNaN = false) ∨ (b' = b.reread ∧ b.Stable)

theorem Kept.float_cases (h : Kept (.float y) b') :
    y.isNaN = false ∧ (b' = .float y ∨ ∃ j, y.reread? = some j ∧ b' = .integer j) := by
  rcases h with ⟨rfl, hnan⟩ | ⟨rfl, hstable⟩
  · exact ⟨hnan y rfl, .inl rfl⟩
  · refine ⟨Double.isNaN_of_isFinite (Json.isFinite_of_stable hstable), ?_⟩
    rcases rereadFloat_cases hstable with ⟨-, hfloat⟩ | ⟨j, hj, hinteger⟩
    · exact .inl hfloat
    · exact .inr ⟨j, hj, hinteger⟩

/-- Only a float may change what others compare to it. -/
theorem Kept.compare?_eq (h : Kept b b') (hb : ∀ y, b ≠ .float y) (a : Value) :
    a.compare? b' = a.compare? b := by
  rcases h with ⟨rfl, -⟩ | ⟨rfl, -⟩
  · rfl
  · cases b with
    | float y => exact absurd rfl (hb y)
    | array items => cases a <;> rfl
    | object entries => cases a <;> rfl
    | null | bool _ | integer _ | string _ => rfl

variable {i : Int64}

theorem compare?_integer_iff (hx : x.reread? = some i) (n : Int64) :
    (Value.integer i).compare? (.integer n) = (Value.float x).compare? (.integer n) ↔
      ((x.compare? (Double.ofInt n.toInt) == some .eq) && i != n) = false := by
  show some _ = x.compare? (Double.ofInt n.toInt) ↔ _
  rw [← Bool.not_eq_true, Bool.and_eq_true, beq_iff_eq, bne_iff_ne, not_and, not_not]
  constructor
  · intro h heq
    rw [← h, Option.some_inj, compare_eq_iff_eq] at heq
    exact Int64.toInt_inj.mp heq
  · intro h
    exact (Double.compare?_ofInt hx h).symm

theorem compare?_float_iff (hx : x.reread? = some i) (hy : y.isNaN = false) :
    (Value.integer i).compare? (.float y) = (Value.float x).compare? (.float y) ↔
      ((x.compare? y == some .eq) != (i == y.toInt64)) = false := by
  show some _ = x.compare? y ↔ _
  rw [bne_eq_false_iff_eq, Bool.eq_iff_iff, beq_iff_eq, beq_iff_eq]
  constructor
  · intro h
    rw [← h, Option.some_inj, compare_eq_iff_eq]
    exact Int64.toInt_inj
  · intro h
    exact (Double.compare?_toInt64 hx hy h).symm

theorem compare?_rereadFloat_iff (hx : x.Stable) (hb : Kept b b') :
    (rereadFloat x).compare? b' = (Value.float x).compare? b ↔
      (Value.float x).drifts b b' = false := by
  cases b with
  | float y =>
      obtain ⟨hy, rfl | ⟨j, hj, rfl⟩⟩ := hb.float_cases
      · rcases rereadFloat_cases hx with ⟨hnone, hfloat⟩ | ⟨i, hi, hinteger⟩
        · simp [hfloat, drifts, hnone]
        · rw [hinteger, compare?_float_iff hi hy, drifts, hi, Option.any_some]
      · -- both are read back, and their integers compare like them
        refine iff_of_true ?_ rfl
        rcases rereadFloat_cases hx with ⟨-, hfloat⟩ | ⟨i, hi, hinteger⟩
        · rw [hfloat, compare?, compare?, Double.ofInt_of_reread? hj]
        · rw [hinteger, compare?, compare?, Double.compare?_of_reread? hi hj]
  | integer n =>
      rw [hb.compare?_eq (by simp)]
      rcases rereadFloat_cases hx with ⟨hnone, hfloat⟩ | ⟨i, hi, hinteger⟩
      · simp [hfloat, drifts, hnone]
      · rw [hinteger, compare?_integer_iff hi, drifts, hi, Option.any_some]
  | null | bool _ | string _ | array _ | object _ =>
      rw [hb.compare?_eq (by simp)]
      refine iff_of_true ?_ rfl
      rcases rereadFloat_cases hx with ⟨-, hfloat⟩ | ⟨i, -, hinteger⟩
      · rw [hfloat]
      · rw [hinteger]
        rfl

/-- **Reading back changes a comparison exactly if it drifts.** -/
theorem compare?_reread_iff (ha : a.Stable) (hb : Kept b b') :
    a.reread.compare? b' = a.compare? b ↔ a.drifts b b' = false := by
  cases a with
  | float x => exact compare?_rereadFloat_iff ha hb
  | integer n =>
      show (Value.integer n).compare? b' = _ ↔ _
      cases b with
      | float y =>
          obtain ⟨-, rfl | ⟨j, -, rfl⟩⟩ := hb.float_cases
          · exact iff_of_true rfl rfl
          · rw [compare?, compare?, drifts, bne_eq_false_iff_eq, Option.some_inj]
            exact eq_comm
      | null | bool _ | integer _ | string _ | array _ | object _ =>
          exact iff_of_true (hb.compare?_eq (by simp) _) rfl
  | string text =>
      show (Value.string text).compare? b' = _ ↔ _
      cases b with
      | float y =>
          obtain ⟨-, rfl | ⟨j, -, rfl⟩⟩ := hb.float_cases <;> exact iff_of_true rfl rfl
      | null | bool _ | integer _ | string _ | array _ | object _ =>
          exact iff_of_true (hb.compare?_eq (by simp) _) rfl
  | null | bool _ | array _ | object _ => exact iff_of_true (by cases b' <;> cases b <;> rfl) rfl

end Value

end FieldQuery

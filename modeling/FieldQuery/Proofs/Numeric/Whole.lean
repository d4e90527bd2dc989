/-
Floats that are written like integers.

A float whose shortest decimal reaches no place behind the dot is written without one,
and its text is that of an integer, `whole?`.  If it is one of 64 bits the float is read
back as this integer, `reread?`.

Reading back never turns an order round.  The integer compares like the float with all
other floats that are read back in this way, and with the rest it does so unless the one
is equal where the other is not, `compare?_ofInt` and `compare?_toInt64`.  That happens
where an integer or a float with a fraction is rounded to its number.

What makes it true is that the integer lies in the interval of the float.  Intervals are
in the order of their floats, so integers in different intervals are in this order as
well; and a whole number that lies between two floats is not passed by rounding either
of them toward zero.
-/
import FieldQuery.Numeric.Arithmetic
import FieldQuery.Proofs.Numeric.Rounded
import FieldQuery.Proofs.Numeric.Text

namespace FieldQuery

/-- Zeros behind the digits of a number shift it. -/
theorem Digits.ofNat_mul_power {n : Nat} (h : 0 < n) (places : Nat) :
    ofNat (n * power 10 places) = ofNat n ++ List.replicate places '0' := by
  induction places with
  | zero => simp
  | succ places ih =>
      have hpos : 0 < n * power 10 places := Nat.mul_pos h (power_pos (by decide) _)
      rw [power_succ, ← Nat.mul_assoc, ofNat, Nat.toDigits_of_base_le (by decide) (by omega),
        Nat.mul_div_cancel _ (by decide), Nat.mul_mod_left, List.replicate_succ',
        ← List.append_assoc, ← ih]
      rfl

namespace Double

variable {x y : Double} {n m : Int}

/-! ### The integer that a text looks like

The digits of a float without places behind the dot are those of an integer, with zeros
behind them as the exponent asks for.  The integer need not be the value of the float,
only one in its interval.
-/

/-- The integer that the text of a float looks like. -/
def whole? (x : Double) : Option Int :=
  if x.shortest.exponent < 0 then none
  else
    let magnitude := x.shortest.digits * power 10 x.shortest.exponent.toNat
    some (if x.negative then -(magnitude : Int) else magnitude)

theorem shortest_digits_eq_zero_iff : x.shortest.digits = 0 ↔ x.magnitude = 0 := by
  rw [← zero_mem_interval_iff]
  constructor
  · intro hdigits
    have hmem := x.shortest_mem_interval
    rwa [Decimal.value, hdigits, Nat.cast_zero, zero_mul] at hmem
  · intro hmem
    have hsignificand : x.significand = 0 := by
      simp [significand, exponentBits, zero_mem_interval_iff.mp hmem]
    rw [shortest, if_pos hsignificand]

/-- The digits of zero are not shifted. -/
theorem exponent_eq_zero_of_digits (h : x.shortest.digits = 0) : x.shortest.exponent = 0 := by
  have hsignificand : x.significand = 0 := by
    simp [significand, exponentBits, shortest_digits_eq_zero_iff.mp h]
  rw [shortest, if_pos hsignificand]

theorem eq_of_whole? (h : x.whole? = some n) :
    0 ≤ x.shortest.exponent ∧
      n.natAbs = x.shortest.digits * power 10 x.shortest.exponent.toNat ∧
      n = if x.negative then -(n.natAbs : Int) else n.natAbs := by
  unfold whole? at h
  split at h
  · simp at h
  · rename_i hexponent
    generalize x.shortest.digits * power 10 x.shortest.exponent.toNat = magnitude at h ⊢
    obtain rfl := Option.some.inj h
    refine ⟨not_lt.mp hexponent, ?_, ?_⟩ <;> cases x.negative <;> simp

/-- The integer lies in the interval of the float. -/
theorem mem_interval_of_whole? (h : x.whole? = some n) : (n.natAbs : ℚ) ∈ x.interval := by
  obtain ⟨hexponent, habs, -⟩ := eq_of_whole? h
  have hvalue : x.shortest.value = (n.natAbs : ℚ) := by
    rw [habs, Decimal.value, power_eq_pow]
    push_cast
    rw [← zpow_natCast, Int.toNat_of_nonneg hexponent]
  exact hvalue ▸ x.shortest_mem_interval

/-- Negative zero is the only float that is not written with the sign of its integer. -/
theorem negative_eq (h : x.whole? = some n) (hzero : x.negative = true → n ≠ 0) :
    x.negative = decide (n < 0) := by
  obtain ⟨-, -, hn⟩ := eq_of_whole? h
  cases hsign : x.negative with
  | false =>
      rw [hsign, if_neg (by decide)] at hn
      rw [decide_eq_false (by omega)]
  | true =>
      rw [hsign, if_pos rfl] at hn
      have hne := hzero hsign
      rw [decide_eq_true (by omega)]

theorem eq_zero_iff_of_whole? (h : x.whole? = some n) : n = 0 ↔ x.magnitude = 0 := by
  obtain ⟨-, habs, -⟩ := eq_of_whole? h
  rw [← shortest_digits_eq_zero_iff, ← Int.natAbs_eq_zero, habs, Nat.mul_eq_zero]
  exact or_iff_left (power_pos (by decide) _).ne'

/-- The integer is rounded to the float. -/
theorem ofInt_of_whole? (hx : x.isFinite = true) (h : x.whole? = some n)
    (hzero : x.negative = true → n ≠ 0) : ofInt n = x :=
  ofInt_eq hx (negative_eq h hzero) (mem_interval_of_whole? h)

/-- The integer of 64 bits that the text of a finite float is read as, if it is one.  No integer
is negative zero. -/
def reread? (x : Double) : Option Int64 :=
  if x.isFinite ∧ ¬(x.negative ∧ x.magnitude = 0) then x.whole?.bind int64? else none

theorem reread?_eq_some {i : Int64} (h : x.reread? = some i) :
    x.isFinite = true ∧ x.whole? = some i.toInt ∧ (x.negative = true → i.toInt ≠ 0) := by
  unfold reread? at h
  split at h
  · rename_i hplain
    obtain ⟨n, hn, hfits⟩ := Option.bind_eq_some_iff.mp h
    rw [toInt_of_int64? hfits]
    refine ⟨hplain.1, hn, fun hsign hzero => hplain.2 ⟨hsign, ?_⟩⟩
    exact (eq_zero_iff_of_whole? hn).mp hzero
  · simp at h

theorem reread?_of_whole? (hx : x.isFinite = true) (h : x.whole? = some n) :
    x.reread? = if x.negative ∧ n = 0 then none else int64? n := by
  have hzero := eq_zero_iff_of_whole? h
  rw [reread?, h, Option.bind_some]
  by_cases hn : x.negative ∧ n = 0
  · rw [if_neg fun hplain => hplain.2 ⟨hn.1, hzero.mp hn.2⟩, if_pos hn]
  · rw [if_pos ⟨hx, fun hmagnitude => hn ⟨hmagnitude.1, hzero.mpr hmagnitude.2⟩⟩, if_neg hn]

/-! ### Comparing

Floats are compared by rank, a magnitude with a sign.  Integers have the order of the
ranks wherever these differ; so the one thing that can go wrong is equality.
-/

variable {i j : Int64}

theorem compare?_eq (hx : x.isNaN = false) (hy : y.isNaN = false) :
    x.compare? y = some (compare x.rank y.rank) := by
  rw [compare?, hx, hy]
  rfl

theorem compare?_eq_iff (hx : x.isNaN = false) (hy : y.isNaN = false) :
    x.compare? y = some .eq ↔ x.rank = y.rank := by
  rw [compare?_eq hx hy, Option.some_inj, compare_eq_iff_eq]

/-- Integers whose order is never turned round compare alike if they are equal alike. -/
theorem compare_congr {a b c d : Int} (hlt : a < b → c ≤ d) (hgt : b < a → d ≤ c)
    (heq : a = b ↔ c = d) : compare a b = compare c d := by
  rcases lt_trichotomy a b with h | h | h
  · rw [compare_lt_iff_lt.mpr h, compare_lt_iff_lt.mpr (by omega)]
  · rw [compare_eq_iff_eq.mpr h, compare_eq_iff_eq.mpr (heq.mp h)]
  · rw [compare_gt_iff_gt.mpr h, compare_gt_iff_gt.mpr (by omega)]

/-- Whether an integer is zero or has the sign of a float. -/
def Signed (x : Double) (n : Int) : Prop := if x.negative then n ≤ 0 else 0 ≤ n

theorem signed_of_negative_eq (h : x.negative = decide (n < 0)) : x.Signed n := by
  unfold Signed
  split
  · rename_i hsign
    exact (of_decide_eq_true (h ▸ hsign)).le
  · rename_i hsign
    exact not_lt.mp fun hn => hsign (h.trans (decide_eq_true hn))

theorem signed_truncated (y : Double) : y.Signed y.truncated := by
  unfold Signed truncated
  split <;> omega

/-- Integers are in the order of floats if they have their signs and the same order without
them. -/
theorem le_of_rank_lt (hx : x.Signed n) (hy : y.Signed m)
    (hlt : x.magnitude < y.magnitude → n.natAbs ≤ m.natAbs)
    (hgt : y.magnitude < x.magnitude → m.natAbs ≤ n.natAbs) (h : x.rank < y.rank) : n ≤ m := by
  unfold Signed at hx hy
  unfold rank at h
  cases hxs : x.negative <;> cases hys : y.negative <;>
    simp only [hxs, hys, if_true, if_false, Bool.false_eq_true] at hx hy h <;> omega

/-- The integer of a float has its sign, and is zero where it is. -/
theorem sign_of_reread? (h : x.reread? = some i) :
    x.negative = decide (i.toInt < 0) ∧ (x.magnitude = 0 → i.toInt = 0) := by
  obtain ⟨-, hwhole, hzero⟩ := reread?_eq_some h
  exact ⟨negative_eq hwhole hzero, (eq_zero_iff_of_whole? hwhole).mpr⟩

theorem isNaN_of_reread? (h : x.reread? = some i) : x.isNaN = false :=
  isNaN_of_isFinite (reread?_eq_some h).1

theorem mem_interval_of_reread? (h : x.reread? = some i) : (i.toInt.natAbs : ℚ) ∈ x.interval :=
  mem_interval_of_whole? (reread?_eq_some h).2.1

/-- What is read back as an integer is what the integer is rounded to. -/
theorem ofInt_of_reread? (h : x.reread? = some i) : ofInt i.toInt = x := by
  obtain ⟨hfinite, hwhole, hzero⟩ := reread?_eq_some h
  exact ofInt_of_whole? hfinite hwhole hzero

theorem natAbs_toInt_lt (i : Int64) : i.toInt.natAbs < 2 ^ 64 := by
  have hlow := i.le_toInt
  have hhigh := i.toInt_lt
  omega

/-- The integer of a float compares like it with any other integer that is not rounded to the
float. -/
theorem compare?_ofInt (hx : x.reread? = some i)
    (heq : x.compare? (ofInt j.toInt) = some .eq → i = j) :
    x.compare? (ofInt j.toInt) = some (compare i.toInt j.toInt) := by
  have hxs := signed_of_negative_eq (sign_of_reread? hx).1
  have hys := signed_of_negative_eq (negative_ofInt j.toInt)
  have hxmem := mem_interval_of_reread? hx
  have hymem := (ofInt_spec (natAbs_toInt_lt j)).2
  have hlt : x.magnitude < (ofInt j.toInt).magnitude → i.toInt.natAbs ≤ j.toInt.natAbs :=
    fun h => (Nat.cast_lt.mp (lt_of_mem h hxmem hymem)).le
  have hgt : (ofInt j.toInt).magnitude < x.magnitude → j.toInt.natAbs ≤ i.toInt.natAbs :=
    fun h => (Nat.cast_lt.mp (lt_of_mem h hymem hxmem)).le
  rw [compare?_eq_iff (isNaN_of_reread? hx) (isNaN_ofInt _)] at heq
  rw [compare?_eq (isNaN_of_reread? hx) (isNaN_ofInt _)]
  refine congrArg some (compare_congr (le_of_rank_lt hxs hys hlt hgt)
    (le_of_rank_lt hys hxs hgt hlt) ⟨fun h => congrArg Int64.toInt (heq h), fun h => ?_⟩)
  rw [← h, ofInt_of_reread? hx]

/-- Two floats that are read back as integers compare like these. -/
theorem compare?_of_reread? (hx : x.reread? = some i) (hy : y.reread? = some j) :
    x.compare? y = some (compare i.toInt j.toInt) := by
  obtain ⟨hxs, hx'⟩ := sign_of_reread? hx
  obtain ⟨hys, hy'⟩ := sign_of_reread? hy
  rw [← ofInt_of_reread? hy]
  refine compare?_ofInt hx fun heq => ?_
  rw [ofInt_of_reread? hy, compare?_eq_iff (isNaN_of_reread? hx) (isNaN_of_reread? hy)] at heq
  unfold rank at heq
  by_cases hsign : x.negative = y.negative
  · have hmagnitude : x.magnitude = y.magnitude := by
      rw [hsign] at heq
      split at heq <;> omega
    obtain rfl := ext_magnitude hsign hmagnitude
    exact Option.some.inj (hx.symm.trans hy)
  · -- of different signs only zeros are equal
    have hzero : x.magnitude = 0 ∧ y.magnitude = 0 := by
      cases hxn : x.negative <;> cases hyn : y.negative <;>
        simp only [hxn, hyn, if_true, if_false, Bool.false_eq_true] at heq hsign <;>
        first | omega | exact absurd trivial hsign
    exact Int64.toInt_inj.mp ((hx' hzero.1).trans (hy' hzero.2).symm)

/-! ### Rounding toward zero

The other value may have a fraction.  It loses it before it is compared with an integer,
and so may become equal to one that the float was not equal to.
-/

/-- The value of a magnitude. -/
def size (x : Double) : ℚ := x.significand * 2 ^ x.scale

theorem size_nonneg (x : Double) : 0 ≤ x.size := by
  unfold size
  positivity

theorem size_mem_interval (x : Double) : x.size ∈ x.interval := by
  have hunit : (0 : ℚ) < 2 ^ x.scale / 4 := by positivity
  have hsize : x.size = (4 * x.significand : Nat) * (2 ^ x.scale / 4) := by
    rw [size]
    push_cast
    ring
  have hlower : 0 < x.lowerQuarters := by
    unfold lowerQuarters
    split <;> omega
  unfold interval lower upper
  rw [zpow_sub_two, hsize]
  split
  · exact ⟨mul_le_mul_of_nonneg_right (Nat.cast_le.mpr (by omega)) hunit.le,
      mul_le_mul_of_nonneg_right (Nat.cast_le.mpr (by omega)) hunit.le⟩
  · exact ⟨mul_lt_mul_of_pos_right (Nat.cast_lt.mpr (by omega)) hunit,
      mul_lt_mul_of_pos_right (Nat.cast_lt.mpr (by omega)) hunit⟩

theorem denominator_pos (x : Double) : 0 < x.denominator := power_pos (by decide) _

/-- The value as a quotient. -/
theorem size_eq_div (x : Double) : x.size = x.numerator / x.denominator := by
  have hquotient := scaled_quotient x.significand 1 (-x.scale)
  rw [neg_neg, Nat.one_mul, Nat.cast_one, div_one, zpow_neg, div_inv_eq_mul] at hquotient
  exact hquotient.symm

theorem wholePart_spec (x : Double) : (x.wholePart : ℚ) ≤ x.size ∧ x.size < x.wholePart + 1 := by
  have hpos := x.denominator_pos
  have hwhole : x.wholePart = x.numerator / x.denominator := rfl
  rw [x.size_eq_div, hwhole]
  generalize x.numerator = num
  generalize x.denominator = den at *
  have hcast : (0 : ℚ) < den := Nat.cast_pos.mpr hpos
  rw [le_div_iff₀ hcast, div_lt_iff₀ hcast]
  have habove : num < (num / den + 1) * den :=
    (Nat.div_lt_iff_lt_mul hpos).mp (Nat.lt_succ_self _)
  exact ⟨by exact_mod_cast Nat.div_mul_le_self num den, by exact_mod_cast habove⟩

/-- Rounding to 64 bits passes no integer. -/
theorem le_nearestInt64 {t : Int} :
    (i.toInt ≤ t → i.toInt ≤ (nearestInt64 t).toInt) ∧
      (t ≤ i.toInt → (nearestInt64 t).toInt ≤ i.toInt) := by
  have hlow := i.le_toInt
  have hhigh := i.toInt_lt
  unfold nearestInt64
  split
  · rw [Int64.toInt_minValue]
    omega
  · split
    · rw [Int64.toInt_maxValue]
      omega
    · rw [Int64.toInt_ofInt_of_le (by omega) (by omega)]
      exact ⟨id, id⟩

/-- The integer of a float compares like it with a float that is rounded toward zero, if the one
is equal where the other is. -/
theorem compare?_toInt64 (hx : x.reread? = some i) (hy : y.isNaN = false)
    (heq : x.compare? y = some .eq ↔ i = y.toInt64) :
    x.compare? y = some (compare i.toInt y.toInt64.toInt) := by
  have hxs := signed_of_negative_eq (sign_of_reread? hx).1
  have hys := y.signed_truncated
  have hxmem := mem_interval_of_reread? hx
  obtain ⟨hlow, hhigh⟩ := y.wholePart_spec
  have habs : y.truncated.natAbs = y.wholePart := by
    unfold truncated
    split <;> omega
  have hlt : x.magnitude < y.magnitude → i.toInt.natAbs ≤ y.truncated.natAbs := by
    intro h
    have hless := (lt_of_mem h hxmem y.size_mem_interval).trans hhigh
    rw [habs]
    exact Nat.lt_succ_iff.mp (by exact_mod_cast hless)
  have hgt : y.magnitude < x.magnitude → y.truncated.natAbs ≤ i.toInt.natAbs := by
    intro h
    have hless := hlow.trans_lt (lt_of_mem h y.size_mem_interval hxmem)
    rw [habs]
    exact (Nat.cast_lt.mp hless).le
  have htoInt : y.toInt64 = nearestInt64 y.truncated := by
    rw [toInt64, hy]
    rfl
  rw [compare?_eq_iff (isNaN_of_reread? hx) hy, htoInt, ← Int64.toInt_inj] at heq
  rw [compare?_eq (isNaN_of_reread? hx) hy, htoInt]
  refine congrArg some (compare_congr (fun h => ?_) (fun h => ?_) heq)
  · exact le_nearestInt64.1 (le_of_rank_lt hxs hys hlt hgt h)
  · exact le_nearestInt64.2 (le_of_rank_lt hys hxs hgt hlt h)

/-! ### Texts -/

/-- What is read back as an integer has the text of the integer. -/
theorem text_of_reread? (h : x.reread? = some i) : Digits.ofInt i.toInt = x.text.toList := by
  obtain ⟨hfinite, hwhole, -⟩ := reread?_eq_some h
  obtain ⟨hexponent, habs, -⟩ := eq_of_whole? hwhole
  have hdigits : Digits.ofNat i.toInt.natAbs = x.shortest.text := by
    rw [habs, Decimal.text, if_pos hexponent]
    rcases Nat.eq_zero_or_pos x.shortest.digits with hzero | hpos
    · rw [hzero, exponent_eq_zero_of_digits hzero]
      rfl
    · exact Digits.ofNat_mul_power hpos _
  rw [toList_text (isNaN_of_isFinite hfinite), unsignedText, if_pos hfinite, ← hdigits,
    (sign_of_reread? h).1, Digits.ofInt]
  by_cases hnegative : i.toInt < 0 <;> simp [hnegative]

end Double

end FieldQuery

/-
Numbers that are scaled by powers of ten.

A product or quotient of doubles is its exact value rounded once, so what `scaled?` gives is
rounded twice or more: the power of ten may not be a double, and the result may not be one either.
Nothing is lost where the first rounding loses nothing.  What makes that common is that integers
below `2 ^ 53` are doubles, and so are the powers of ten up to `10 ^ 22`, because `5 ^ 22` is such
an integer.  A decimal with digits and an exponent in these ranges is scaled to the double nearest
to it, `scaled?_eq_ofDecimal`; outside of them it may be scaled to another one near by.

Dividing never makes a number too large, because no power of ten is less than one, so a number
that is given is finite, `isFinite_of_scaled?`.  Not proved here: how far a number outside the
ranges can be from the nearest double, and which of the largest ones are refused.
-/
import FieldQuery.Proofs.Numeric.Whole

namespace FieldQuery.Double

variable {x y z : Double} {n : Nat}

/-! ### Products and quotients

The two are rounded by `ofRatio`, so they are settled by the interval that their exact value lies
in: a finite double around the value is the result.
-/

theorem numerator_pos (h : 0 < x.size) : 0 < x.numerator := by
  rw [x.size_eq_div] at h
  refine Nat.pos_of_ne_zero fun hzero => ?_
  rw [hzero, Nat.cast_zero, zero_div] at h
  exact lt_irrefl _ h

theorem cast_times (x y : Double) :
    ((x.numerator * y.numerator : Nat) / (x.denominator * y.denominator : Nat) : ℚ) =
      x.size * y.size := by
  rw [x.size_eq_div, y.size_eq_div]
  push_cast
  exact (div_mul_div_comm _ _ _ _).symm

theorem cast_divided (x y : Double) :
    ((x.numerator * y.denominator : Nat) / (x.denominator * y.numerator : Nat) : ℚ) =
      x.size / y.size := by
  rw [x.size_eq_div, y.size_eq_div]
  push_cast
  exact (div_div_div_eq _ _ _ _).symm

/-- Without the signs a product is the exact one, rounded. -/
theorem times_eq_ofRatio (hx : x.negative = false) (hy : y.negative = false) {num den : Nat}
    (hden : 0 < den) (hvalue : x.size * y.size = num / den) (hless : x.size * y.size < limit) :
    x.times y = ofRatio false num den := by
  rw [times, hx, hy]
  refine ofRatio_congr _ (Nat.mul_pos x.denominator_pos y.denominator_pos) hden ?_ ?_
  · rw [cast_times, hvalue]
  · rwa [cast_times]

/-- So is a quotient. -/
theorem divided_eq_ofRatio (hx : x.negative = false) (hy : y.negative = false) (hpos : 0 < y.size)
    {num den : Nat} (hden : 0 < den) (hvalue : x.size / y.size = num / den)
    (hless : x.size / y.size < limit) : x.divided y = ofRatio false num den := by
  rw [divided, hx, hy]
  refine ofRatio_congr _ (Nat.mul_pos x.denominator_pos (numerator_pos hpos)) hden ?_ ?_
  · rw [cast_divided, hvalue]
  · rwa [cast_divided]

theorem size_lt_limit (hx : x.isFinite = true) : x.size < limit :=
  lt_of_isFinite hx x.size_mem_interval

/-- Dividing by no less than one leaves a number finite. -/
theorem isFinite_divided (hx : x.isFinite = true) (hy : 1 ≤ y.size) :
    (x.divided y).isFinite = true := by
  have hpos := numerator_pos (zero_lt_one.trans_le hy)
  refine (ofRatio_spec _ (Nat.mul_pos x.denominator_pos hpos) ?_).1
  rw [cast_divided]
  exact (div_le_self x.size_nonneg hy).trans_lt (size_lt_limit hx)

/-! ### Integers and powers of ten that are doubles

A double is the only one with its own value in its interval, so an integer is a double
if it is a multiple of the last place of what it is rounded to.
-/

/-- The multiples of its last place that a double has in its interval are its own value. -/
theorem size_eq_of_mem {m : Nat} (h : (m * 2 ^ x.scale : ℚ) ∈ x.interval) :
    x.size = m * 2 ^ x.scale := by
  have hunit : (0 : ℚ) < 2 ^ x.scale / 4 := by positivity
  have hfew := x.lowerQuarters_le
  have hm : (m * 2 ^ x.scale : ℚ) = (4 * m : Nat) * (2 ^ x.scale / 4) := by
    push_cast
    ring
  obtain ⟨hlow, hhigh⟩ := bounds_of_mem h
  rw [lower, zpow_sub_two, hm] at hlow
  rw [upper, zpow_sub_two, hm] at hhigh
  have hlow' := Nat.cast_le.mp (le_of_mul_le_mul_right hlow hunit)
  have hhigh' := Nat.cast_le.mp (le_of_mul_le_mul_right hhigh hunit)
  rw [size, show x.significand = m by omega]

/-- A double with a smaller integer than `2 ^ 53` in its interval has a last place of one or
less. -/
theorem scale_le_zero (hn : n < 2 ^ 53) (h : (n : ℚ) ∈ x.interval) : x.scale ≤ 0 := by
  by_contra hlarge
  have hscale := x.scale_eq
  obtain ⟨fraction, -, -, hparts⟩ := x.significand_spec
  have hlow := (bounds_of_mem h).1
  have hquarters : 2 ^ 54 - 1 ≤ 4 * x.significand - x.lowerQuarters := by
    unfold lowerQuarters
    rw [exponentWeight] at *
    split <;> omega
  have hunit : (2 : ℚ) ^ (-1 : Int) ≤ 2 ^ (x.scale - 2) :=
    zpow_le_zpow_right₀ one_le_two (by omega)
  have hcontra : ((2 ^ 54 - 1 : Nat) : ℚ) * 2 ^ (-1 : Int) ≤ n :=
    (mul_le_mul (Nat.cast_le.mpr hquarters) hunit (by positivity) (by positivity)).trans hlow
  have hcast : (n : ℚ) ≤ 2 ^ 53 - 1 := by
    rw [le_sub_iff_add_le]
    exact_mod_cast hn
  norm_num at hcontra
  linarith

/-- **Integers below `2 ^ 53` are doubles.** -/
theorem size_ofInt (hn : n < 2 ^ 53) : (ofInt n).size = n := by
  have hmem := (ofInt_spec (n := n) (by rw [Int.natAbs_natCast]; omega)).2
  rw [Int.natAbs_natCast] at hmem
  have hscale := scale_le_zero hn hmem
  have hn : (n : ℚ) = (n * 2 ^ (-(ofInt n).scale).toNat : Nat) * 2 ^ (ofInt n).scale := by
    push_cast
    rw [mul_assoc, ← zpow_natCast, ← zpow_add₀ two_ne_zero]
    simp [Int.toNat_of_nonneg (neg_nonneg.mpr hscale)]
  rw [hn] at hmem
  rw [size_eq_of_mem hmem, ← hn]

theorem ten_pow_lt_limit : (10 : ℚ) ^ maxPower < limit := by
  have h : 10 ^ 308 + 2 ^ 970 < 2 ^ 54 * 2 ^ 970 := by decide +kernel
  rw [limit, maxPower, sub_mul, one_mul, lt_sub_iff_add_lt]
  exact_mod_cast h

theorem powerOfTen_spec (hn : n ≤ maxPower) :
    (powerOfTen n).isFinite = true ∧ (10 ^ n : ℚ) ∈ (powerOfTen n).interval := by
  have hless : ((power 10 n : Nat) / (1 : Nat) : ℚ) < limit := by
    rw [Nat.cast_one, div_one, power_eq_pow, Nat.cast_pow, Nat.cast_ofNat]
    exact (pow_le_pow_right₀ (by norm_num) hn).trans_lt ten_pow_lt_limit
  have hspec := ofRatio_spec false Nat.one_pos hless
  rw [Nat.cast_one, div_one, power_eq_pow] at hspec
  exact_mod_cast hspec

theorem negative_powerOfTen (n : Nat) : (powerOfTen n).negative = false := negative_ofRatio _ _ _

theorem size_powerOfTen (hn : n ≤ 22) : (powerOfTen n).size = 10 ^ n := by
  have hall : ∀ n ≤ 22, (powerOfTen n).numerator = 10 ^ n * (powerOfTen n).denominator := by
    decide +kernel
  have hpos : ((powerOfTen n).denominator : ℚ) ≠ 0 :=
    Nat.cast_ne_zero.mpr (powerOfTen n).denominator_pos.ne'
  rw [size_eq_div, hall n hn, div_eq_iff hpos]
  push_cast
  rfl

theorem one_le_size_powerOfTen (hn : n ≤ maxPower) : 1 ≤ (powerOfTen n).size := by
  have hone : (powerOfTen 0).size = 1 := by
    rw [size_powerOfTen (by decide), pow_zero]
  rcases Nat.lt_or_ge (powerOfTen n).magnitude (powerOfTen 0).magnitude with hlt | hge
  · have hless := lt_of_mem hlt (powerOfTen_spec hn).2 (powerOfTen 0).size_mem_interval
    rw [hone] at hless
    exact absurd hless (not_lt.mpr (one_le_pow₀ (by norm_num)))
  · rcases hge.eq_or_lt with heq | hlt
    · have hsame : powerOfTen 0 = powerOfTen n :=
        ext_magnitude (by simp only [negative_powerOfTen]) heq
      rw [← hsame, hone]
    · rw [← hone]
      exact (lt_of_mem hlt (size_mem_interval _) (size_mem_interval _)).le

/-! ### Scaling

Within the table one operation scales a number.  Beyond it the number is divided by the
greatest power of the table first, which it can be again and again.
-/

/-- **A number that is given is finite.**  The induction follows the steps in which a number is
divided by `10 ^ maxPower`. -/
theorem isFinite_of_scaled? {exponent : Int} (hx : x.isFinite = true)
    (h : x.scaled? exponent = some y) : y.isFinite = true := by
  fun_induction scaled? x exponent with
  | case1 x exponent hsmall hzero =>
      obtain rfl := Option.some.inj h
      exact hx
  | case2 x exponent hsmall hzero ih =>
      exact ih (isFinite_divided hx (one_le_size_powerOfTen le_rfl)) h
  | case3 x exponent hsmall hneg =>
      obtain rfl := Option.some.inj h
      refine isFinite_divided hx (one_le_size_powerOfTen ?_)
      rw [maxPower] at *
      omega
  | case4 x exponent hsmall hneg hlarge product hfinite =>
      obtain rfl := Option.some.inj h
      exact hfinite
  | case6 x exponent hsmall hneg hlarge hzero =>
      obtain rfl := Option.some.inj h
      exact hx
  | case5 | case7 => simp at h

/-- Nothing happens to a number that is not shifted. -/
theorem scaled?_zero (hx : x.isFinite = true) (hsign : x.negative = false) :
    x.scaled? 0 = some x := by
  have hone : x.size * (powerOfTen 0).size = x.size := by
    rw [size_powerOfTen (by decide), pow_zero, mul_one]
  have hless : x.size * (powerOfTen 0).size < limit := hone.symm ▸ size_lt_limit hx
  have htimes : x.times (powerOfTen 0) = x := by
    rw [times_eq_ofRatio hsign (negative_powerOfTen 0) x.denominator_pos
      (hone.trans x.size_eq_div) hless, ← hsign]
    refine ofRatio_eq hx x.denominator_pos ?_
    rw [← x.size_eq_div]
    exact x.size_mem_interval
  rw [scaled?, if_neg (by decide), if_neg (by decide), if_pos (by decide)]
  simp only [Int.toNat_zero, htimes, hx, if_true]

/-- A decimal of moderate size is a quotient that is rounded. -/
theorem ofDecimal_eq_ofRatio (negative : Bool) (digits : Nat) {exponent : Int}
    (hlow : -323 ≤ exponent) (hhigh : exponent < 309) :
    ofDecimal negative digits exponent =
      ofRatio negative (digits * power 10 exponent.toNat) (power 10 (-exponent).toNat) := by
  unfold ofDecimal
  split
  · rename_i hzero
    rw [hzero, Nat.zero_mul]
    rfl
  · rw [if_neg (not_le.mpr hhigh), if_neg (by omega)]

theorem lt_limit_of_le {r : ℚ} (h : r ≤ 2 ^ 53 * 10 ^ 22) : r < limit := by
  calc r ≤ 2 ^ 53 * 10 ^ 22 := h
    _ < (2 ^ 54 - 1) * 2 ^ (74 : Int) := by norm_num
    _ ≤ limit := by
      unfold limit
      gcongr <;> norm_num

section

variable (hn : n < 2 ^ 53) {places : Nat} (hfew : places ≤ 22)

include hn hfew

theorem divided_powerOfTen :
    (ofInt n).divided (powerOfTen places) = ofRatio false n (power 10 places) := by
  have hsign : (ofInt n).negative = false := by
    rw [negative_ofInt]
    exact decide_eq_false (by omega)
  refine divided_eq_ofRatio hsign (negative_powerOfTen _) ?_ (power_pos (by decide) _) ?_ ?_
  · rw [size_powerOfTen hfew]
    positivity
  · rw [size_ofInt hn, size_powerOfTen hfew, power_eq_pow]
    push_cast
    rfl
  · rw [size_ofInt hn, size_powerOfTen hfew]
    have hten : (1 : ℚ) ≤ 10 ^ places := one_le_pow₀ (by norm_num)
    have hcast : (n : ℚ) ≤ 2 ^ 53 := by exact_mod_cast hn.le
    refine lt_limit_of_le ((div_le_self (by positivity) hten).trans (hcast.trans ?_))
    norm_num

theorem size_times_powerOfTen_lt :
    (ofInt n).size * (powerOfTen places).size < limit := by
  rw [size_ofInt hn, size_powerOfTen hfew]
  have hcast : (n : ℚ) ≤ 2 ^ 53 := by exact_mod_cast hn.le
  refine lt_limit_of_le (mul_le_mul hcast ?_ (by positivity) (by positivity))
  exact pow_le_pow_right₀ (by norm_num) hfew

theorem size_times_powerOfTen :
    (ofInt n).size * (powerOfTen places).size = (n * power 10 places : Nat) / (1 : Nat) := by
  rw [size_ofInt hn, size_powerOfTen hfew, power_eq_pow]
  push_cast
  rw [div_one]

theorem times_powerOfTen :
    (ofInt n).times (powerOfTen places) = ofRatio false (n * power 10 places) 1 := by
  have hsign : (ofInt n).negative = false := by
    rw [negative_ofInt]
    exact decide_eq_false (by omega)
  exact times_eq_ofRatio hsign (negative_powerOfTen _) Nat.one_pos (size_times_powerOfTen hn hfew)
    (size_times_powerOfTen_lt hn hfew)

theorem isFinite_times_powerOfTen :
    ((ofInt n).times (powerOfTen places)).isFinite = true := by
  rw [times_powerOfTen hn hfew]
  refine (ofRatio_spec false Nat.one_pos ?_).1
  rw [← size_times_powerOfTen hn hfew]
  exact size_times_powerOfTen_lt hn hfew

end

/-- **Scaling is exact in the common range.**  Fewer than `2 ^ 53` digits, as a number, and at most
22 places to either side make the double nearest to the decimal. -/
theorem scaled?_eq_ofDecimal (hn : n < 2 ^ 53) {exponent : Int} (hlow : -22 ≤ exponent)
    (hhigh : exponent ≤ 22) :
    (ofInt n).scaled? exponent = some (ofDecimal false n exponent) := by
  rw [ofDecimal_eq_ofRatio _ _ (by omega) (by omega), scaled?, if_neg (by rw [maxPower]; omega)]
  rcases lt_or_ge exponent 0 with hneg | hnonneg
  · obtain ⟨places, hplaces⟩ : ∃ places : Nat, exponent = -places := ⟨(-exponent).toNat, by omega⟩
    have hnone : (-(places : Int)).toNat = 0 := by omega
    rw [if_pos hneg, hplaces, neg_neg, Int.toNat_natCast, hnone, power_zero, Nat.mul_one,
      divided_powerOfTen hn (by omega)]
  · obtain ⟨places, rfl⟩ : ∃ places : Nat, exponent = places := ⟨exponent.toNat, by omega⟩
    have hfew : places ≤ 22 := by omega
    have hnone : (-(places : Int)).toNat = 0 := by omega
    rw [if_neg (not_lt.mpr hnonneg), if_pos (by rw [maxPower]; omega), Int.toNat_natCast, hnone,
      power_zero]
    simp only [isFinite_times_powerOfTen hn hfew, if_true]
    rw [times_powerOfTen hn hfew]

end FieldQuery.Double

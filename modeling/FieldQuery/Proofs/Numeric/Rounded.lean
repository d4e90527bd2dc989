/-
Numbers that are rounded to the nearest double.

`ofRatio` finds a scale and the integer nearest to the quotient on this scale, `Rounds`.
The double that is put together from the two has the quotient in its interval.
Intervals do not overlap, so every finite double that has a number in its interval is
what this number is rounded to, whether it is given as a quotient, as a decimal or as an
integer.  In particular a double is read back from its shortest decimal.

So rounding is specified by intervals and never by a formula, and two roundings of one
number need not be compared step by step.  What has to be shown of the computation is
one fact, `Rounds`, and one case in it is delicate: a significand that is rounded up to
`2 ^ 53` carries into the exponent bits, and the number then lies in the lower half of
the interval that is twice as wide.

Large exponents are cut off before any power is computed.  That this changes nothing is
a matter of size: beyond them every decimal is rounded to infinity or to zero.
-/
import FieldQuery.Numeric.Rounding
import FieldQuery.Proofs.Numeric.Interval
import Mathlib.Tactic.FieldSimp

namespace FieldQuery

/-! ### The nearest integer

Half a unit is kept as an inequality between integers, and only then is it one between
quotients.
-/

/-- The nearest integer is at most half a unit away, and less than that if it is odd. -/
theorem roundHalfEven_spec (num : Nat) {den : Nat} (hden : 0 < den) :
    2 * (roundHalfEven num den * den) ≤ 2 * num + den ∧
      2 * num ≤ 2 * (roundHalfEven num den * den) + den ∧
      (roundHalfEven num den % 2 ≠ 0 → 2 * (roundHalfEven num den * den) < 2 * num + den ∧
        2 * num < 2 * (roundHalfEven num den * den) + den) := by
  have hsplit : num / den * den + num % den = num := Nat.div_add_mod' num den
  have hless := Nat.mod_lt num hden
  unfold roundHalfEven
  dsimp only
  cases hcompare : compare (2 * (num % den)) den with
  | lt =>
      have hlt := Nat.compare_eq_lt.mp hcompare
      dsimp only
      omega
  | eq =>
      have heq := Nat.compare_eq_eq.mp hcompare
      dsimp only
      rcases Nat.mod_two_eq_zero_or_one (num / den) with hparity | hparity
      · rw [hparity, Nat.add_zero]
        omega
      · rw [hparity, Nat.add_mul, Nat.one_mul]
        omega
  | gt =>
      have hgt := Nat.compare_eq_gt.mp hcompare
      dsimp only
      rw [Nat.add_mul, Nat.one_mul]
      omega

theorem roundHalfEven_bounds (num : Nat) {den : Nat} (hden : 0 < den) :
    (roundHalfEven num den - 1 / 2 : ℚ) ≤ num / den ∧
      (num / den : ℚ) ≤ roundHalfEven num den + 1 / 2 ∧
      (roundHalfEven num den % 2 ≠ 0 → (roundHalfEven num den - 1 / 2 : ℚ) < num / den ∧
        (num / den : ℚ) < roundHalfEven num den + 1 / 2) := by
  have hpos : (0 : ℚ) < den := Nat.cast_pos.mpr hden
  obtain ⟨hlow, hhigh, hodd⟩ := roundHalfEven_spec num hden
  rw [le_div_iff₀ hpos, div_le_iff₀ hpos, lt_div_iff₀ hpos, div_lt_iff₀ hpos]
  have hcast : ∀ {j k : Nat}, j ≤ k → (j : ℚ) ≤ k := Nat.cast_le.mpr
  refine ⟨?_, ?_, fun h => ⟨?_, ?_⟩⟩
  · have := hcast hlow
    push_cast at this
    linarith
  · have := hcast hhigh
    push_cast at this
    linarith
  · have := (Nat.cast_lt (α := ℚ)).mpr (hodd h).1
    push_cast at this
    linarith
  · have := (Nat.cast_lt (α := ℚ)).mpr (hodd h).2
    push_cast at this
    linarith

namespace Double

/-! ### Numbers are numbers

Nothing that is rounded is NaN, whatever it is made from.
-/

theorem isNaN_ofMagnitude (negative : Bool) (magnitude : Nat) :
    (ofMagnitude negative magnitude).isNaN = false :=
  decide_eq_false (Nat.not_lt.mpr (Nat.min_le_right _ _))

theorem isNaN_ofRatio (negative : Bool) (num den : Nat) :
    (ofRatio negative num den).isNaN = false := by
  unfold ofRatio
  split
  · exact isNaN_ofMagnitude _ _
  · exact isNaN_ofMagnitude _ _

theorem negative_ofRatio (negative : Bool) (num den : Nat) :
    (ofRatio negative num den).negative = negative := by
  unfold ofRatio
  split <;> rfl

theorem isNaN_ofInt (n : Int) : (ofInt n).isNaN = false := isNaN_ofRatio _ _ _

theorem isNaN_ofDecimal (negative : Bool) (digits : Nat) (exponent : Int) :
    (ofDecimal negative digits exponent).isNaN = false := by
  unfold ofDecimal
  split
  · exact isNaN_ofMagnitude _ _
  · split
    · exact isNaN_ofMagnitude _ _
    · split
      · exact isNaN_ofMagnitude _ _
      · exact isNaN_ofRatio _ _ _

/-! ### The scale

The scale is the one on which the quotient has fifty-three bits in front of its point,
unless it is too small for that.
-/

/-- The powers of two around a positive number. -/
theorem log2_bounds {n : Nat} (h : 0 < n) :
    (2 : ℚ) ^ (n.log2 : Int) ≤ n ∧ (n : ℚ) < 2 ^ ((n.log2 : Int) + 1) := by
  rw [← Nat.cast_succ, zpow_natCast, zpow_natCast]
  exact ⟨by exact_mod_cast Nat.log2_self_le h.ne', by exact_mod_cast Nat.lt_log2_self⟩

/-- The test of a power of two against a quotient. -/
theorem power_le_iff {num den : Nat} (hden : 0 < den) (e : Int) :
    den * power 2 e.toNat ≤ num * power 2 (-e).toNat ↔ (2 : ℚ) ^ e ≤ num / den := by
  have hunit : (0 : ℚ) < 2 ^ (-e).toNat := by positivity
  rw [← Nat.cast_le (α := ℚ), power_eq_pow, power_eq_pow, le_div_iff₀ (Nat.cast_pos.mpr hden)]
  push_cast
  rw [← zpow_mul_toNat two_ne_zero e, ← mul_assoc, mul_le_mul_iff_of_pos_right hunit, mul_comm]

/-- A quotient lies between two powers of two that are next to each other. -/
theorem floorLog2_spec {num den : Nat} (hnum : 0 < num) (hden : 0 < den) :
    (2 : ℚ) ^ floorLog2 num den ≤ num / den ∧
      (num / den : ℚ) < 2 ^ (floorLog2 num den + 1) := by
  have hpos : (0 : ℚ) < den := Nat.cast_pos.mpr hden
  obtain ⟨hnumLow, hnumHigh⟩ := log2_bounds hnum
  obtain ⟨hdenLow, hdenHigh⟩ := log2_bounds hden
  have hhigh : (num / den : ℚ) < 2 ^ ((num.log2 : Int) - den.log2 + 1) := by
    rw [div_lt_iff₀ hpos]
    calc (num : ℚ) < 2 ^ ((num.log2 : Int) + 1) := hnumHigh
      _ = 2 ^ ((num.log2 : Int) - den.log2 + 1) * 2 ^ (den.log2 : Int) := by
        rw [← zpow_add₀ two_ne_zero]
        congr 1
        ring
      _ ≤ 2 ^ ((num.log2 : Int) - den.log2 + 1) * den := by gcongr
  have hlow : (2 : ℚ) ^ ((num.log2 : Int) - den.log2 - 1) ≤ num / den := by
    rw [le_div_iff₀ hpos]
    calc (2 : ℚ) ^ ((num.log2 : Int) - den.log2 - 1) * den
        ≤ 2 ^ ((num.log2 : Int) - den.log2 - 1) * 2 ^ ((den.log2 : Int) + 1) := by gcongr
      _ = 2 ^ (num.log2 : Int) := by
        rw [← zpow_add₀ two_ne_zero]
        congr 1
        ring
      _ ≤ num := hnumLow
  unfold floorLog2
  dsimp only
  split
  · rename_i hle
    exact ⟨(power_le_iff hden _).mp hle, hhigh⟩
  · rename_i hlt
    rw [sub_add_cancel]
    exact ⟨hlow, not_le.mp fun hle => hlt ((power_le_iff hden _).mpr hle)⟩

/-! ### What the rounded number covers -/

/-- The nearest integer to a number on some scale is this significand.  It has fifty-three bits,
or the scale is the least one. -/
structure Rounds (r : ℚ) (scale : Int) (significand : Nat) : Prop where
  least : -1074 ≤ scale
  nonneg : 0 ≤ r
  /-- Above the least scale the number has no less than fifty-three bits. -/
  full : -1074 < scale → 2 ^ 52 * 2 ^ scale ≤ r
  below : r < 2 ^ 53 * 2 ^ scale
  low : (significand - 1 / 2 : ℚ) * 2 ^ scale ≤ r
  high : r ≤ (significand + 1 / 2 : ℚ) * 2 ^ scale
  odd : significand % 2 ≠ 0 →
    (significand - 1 / 2 : ℚ) * 2 ^ scale < r ∧ r < (significand + 1 / 2 : ℚ) * 2 ^ scale

variable {scale : Int} {significand : Nat}

theorem Rounds.significand_le (h : Rounds r scale significand) : significand ≤ 2 ^ 53 := by
  have hunit : (0 : ℚ) < 2 ^ scale := by positivity
  have hlt := lt_of_mul_lt_mul_right (h.low.trans_lt h.below) hunit.le
  have hcast : (significand : ℚ) < (2 ^ 53 + 1 : Nat) := by
    push_cast
    linarith
  exact Nat.lt_succ_iff.mp (Nat.cast_lt.mp hcast)

theorem Rounds.le_significand (h : Rounds r scale significand) (hscale : -1074 < scale) :
    2 ^ 52 ≤ significand := by
  have hunit : (0 : ℚ) < 2 ^ scale := by positivity
  have hle := le_of_mul_le_mul_right ((h.full hscale).trans h.high) hunit
  have hcast : (2 ^ 52 : Nat) < (significand + 1 : ℚ) := by
    push_cast
    linarith
  exact Nat.lt_succ_iff.mp (by exact_mod_cast hcast)

/-- A quarter of the last place. -/
theorem zpow_sub_two (scale : Int) : (2 : ℚ) ^ (scale - 2) = 2 ^ scale / 4 := by
  rw [zpow_sub₀ two_ne_zero]
  norm_num

/-- A significand that has carried into the exponent bits still has the number around it. -/
theorem Rounds.mem_of_carry (h : Rounds r scale (2 ^ 53)) {z : Double}
    (hsignificand : z.significand = 2 ^ 52) (hscale : z.scale = scale + 1)
    (hquarters : z.lowerQuarters = 1) : r ∈ z.interval := by
  have hunit : (0 : ℚ) < 2 ^ scale := by positivity
  have hlow := h.low
  have hbelow := h.below
  push_cast at hlow
  unfold interval lower upper
  rw [hsignificand, hquarters, if_pos (by norm_num), hscale, zpow_sub_two, zpow_add₀ two_ne_zero]
  constructor
  · norm_num at hlow ⊢
    linarith
  · norm_num at hbelow ⊢
    linarith

/-- The number does not lie below the interval of its significand. -/
theorem Rounds.lower_le (h : Rounds r scale significand) {z : Double}
    (hsignificand : z.significand = significand) (hscale : z.scale = scale) :
    z.lower ≤ r ∧ (significand % 2 ≠ 0 → z.lower < r) := by
  have hunit : (0 : ℚ) < 2 ^ scale := by positivity
  have hleast := z.scale_eq
  unfold lower lowerQuarters
  rw [hsignificand, hscale, zpow_sub_two, exponentWeight]
  split
  · -- the neighbour below is near, and the number is not on its side
    rename_i hnear
    have hlow := h.full (by omega)
    refine ⟨?_, fun hodd => by omega⟩
    rw [hnear.1]
    norm_num at hlow ⊢
    linarith
  · rcases significand.eq_zero_or_pos with rfl | hpos
    · exact ⟨by simpa using h.nonneg, fun hodd => absurd rfl hodd⟩
    · have hends : ((4 * significand - 2 : Nat) : ℚ) * (2 ^ scale / 4) =
          (significand - 1 / 2) * 2 ^ scale := by
        rw [Nat.cast_sub (by omega)]
        push_cast
        ring
      rw [hends]
      exact ⟨h.low, fun hodd => (h.odd hodd).1⟩

/-- The double that is put together from a scale and a significand has the number in its
interval. -/
theorem Rounds.mem_interval (h : Rounds r scale significand) {z : Double}
    (hz : z.magnitude = (scale + 1074).toNat * exponentWeight + significand) :
    r ∈ z.interval := by
  have hleast := h.least
  have hmost := h.significand_le
  have hfull := h.le_significand
  have hscale := z.scale_eq
  obtain ⟨fraction, hfraction, hmagnitude, hparts⟩ := z.significand_spec
  rw [exponentWeight] at *
  rcases hmost.eq_or_lt with rfl | hless
  · refine h.mem_of_carry (by omega) (by omega) ?_
    unfold lowerQuarters
    rw [exponentWeight, if_pos (by omega)]
  · have hsignificand : z.significand = significand := by omega
    have hexponent : z.scale = scale := by omega
    have hupper : z.upper = (significand + 1 / 2) * 2 ^ scale := by
      rw [upper, hsignificand, hexponent, zpow_sub_two]
      push_cast
      ring
    obtain ⟨hlower, hstrict⟩ := h.lower_le hsignificand hexponent
    unfold interval
    rw [hsignificand, hupper]
    split
    · exact ⟨hlower, h.high⟩
    · rename_i hodd
      exact ⟨hstrict hodd, (h.odd hodd).2⟩

/-! ### Quotients

From here on a finite double that has a number in its interval is the result of rounding
it, and nothing about the way there is used any more.
-/

theorem scaled_quotient (num den : Nat) (scale : Int) :
    ((num * power 2 (-scale).toNat : Nat) / (den * power 2 scale.toNat : Nat) : ℚ) =
      num / den / 2 ^ scale := by
  have hunit : (2 : ℚ) ^ (-scale).toNat ≠ 0 := by positivity
  rw [power_eq_pow, power_eq_pow]
  push_cast
  rw [← zpow_mul_toNat two_ne_zero scale, div_div, ← mul_assoc, mul_div_mul_right _ _ hunit]

/-- What `ofRatio` computes. -/
theorem rounds_quotient {num den : Nat} (hnum : 0 < num) (hden : 0 < den) {scale : Int}
    (hscale : scale = max (-1074) (floorLog2 num den - 52)) :
    Rounds (num / den) scale
      (roundHalfEven (num * power 2 (-scale).toNat) (den * power 2 scale.toNat)) := by
  have hunit : (0 : ℚ) < 2 ^ scale := by positivity
  have hden' : 0 < den * power 2 scale.toNat := Nat.mul_pos hden (power_pos (by decide) _)
  obtain ⟨hlog, hlog'⟩ := floorLog2_spec hnum hden
  obtain ⟨hlow, hhigh, hodd⟩ := roundHalfEven_bounds (num * power 2 (-scale).toNat) hden'
  rw [scaled_quotient, le_div_iff₀ hunit] at hlow
  rw [scaled_quotient, div_le_iff₀ hunit] at hhigh
  rw [scaled_quotient, lt_div_iff₀ hunit, div_lt_iff₀ hunit] at hodd
  refine ⟨by omega, by positivity, fun hlarge => ?_, ?_, hlow, hhigh, hodd⟩
  · rw [show (2 : ℚ) ^ 52 = 2 ^ (52 : Int) from rfl, ← zpow_add₀ two_ne_zero]
    rwa [show 52 + scale = floorLog2 num den by omega]
  · rw [show (2 : ℚ) ^ 53 = 2 ^ (53 : Int) from rfl, ← zpow_add₀ two_ne_zero]
    exact hlog'.trans_le (zpow_le_zpow_right₀ one_le_two (by omega))

variable {x : Double} {num den : Nat}

theorem magnitude_lt_infinity (hx : x.isFinite = true) : x.magnitude < infinityMagnitude :=
  of_decide_eq_true hx

theorem isNaN_of_isFinite (hx : x.isFinite = true) : x.isNaN = false :=
  decide_eq_false (Nat.not_lt.mpr (magnitude_lt_infinity hx).le)

/-- What is less than this is rounded to a finite number: half way between the greatest of them
and the next power of two. -/
def limit : ℚ := (2 ^ 54 - 1) * 2 ^ (970 : Int)

/-- What is in the interval of a finite number does not reach the interval of infinity. -/
theorem lt_of_isFinite (hx : x.isFinite = true) (hr : r ∈ x.interval) : r < limit := by
  let y : Double := ⟨false, infinityMagnitude, by decide⟩
  have hsignificand : y.significand = 0x10000000000000 := by decide
  have hexponent : y.scale - 2 = 970 := by decide
  have hquarters : y.lowerQuarters = 1 := by decide
  have hy : limit ∈ y.interval := by
    unfold limit interval lower upper
    rw [hsignificand, hexponent, hquarters, if_pos (by norm_num)]
    constructor <;> norm_num
  have hless : x.magnitude < y.magnitude := magnitude_lt_infinity hx
  exact lt_of_mem hless hr hy

theorem Rounds.lt_infinity (h : Rounds r scale significand) (hless : r < limit) :
    (scale + 1074).toNat * exponentWeight + significand < infinityMagnitude := by
  rw [limit] at hless
  have hleast := h.least
  have hmost := h.significand_le
  have hunit : (0 : ℚ) < 2 ^ (970 : Int) := by positivity
  have hscale : scale ≤ 971 := by
    by_contra hlarge
    have hfull := (h.full (by omega)).trans_lt hless
    have hgrow : (2 : ℚ) ^ (970 + 2 : Int) ≤ 2 ^ scale :=
      zpow_le_zpow_right₀ one_le_two (by omega)
    rw [zpow_add₀ two_ne_zero, show (2 : ℚ) ^ (2 : Int) = 4 by norm_num] at hgrow
    generalize (2 : ℚ) ^ (970 : Int) = unit at *
    linarith
  have hcarry : scale = 971 → significand ≠ 2 ^ 53 := by
    rintro rfl rfl
    have hlow := h.low.trans_lt hless
    rw [show (971 : Int) = 970 + 1 from rfl, zpow_add₀ two_ne_zero] at hlow
    generalize (2 : ℚ) ^ (970 : Int) = unit at *
    push_cast at hlow
    linarith
  rw [exponentWeight, infinityMagnitude]
  omega

theorem ext_magnitude {x y : Double} (hsign : x.negative = y.negative)
    (hmagnitude : x.magnitude = y.magnitude) : x = y := by
  cases x
  cases y
  cases hsign
  cases hmagnitude
  rfl

/-- Only zero has zero in its interval. -/
theorem zero_mem_interval_iff : 0 ∈ x.interval ↔ x.magnitude = 0 := by
  have hzero : ∀ z : Double, z.magnitude = 0 → 0 ∈ z.interval := by
    intro z hz
    have hsignificand : z.significand = 0 := by
      simp [significand, exponentBits, hz]
    unfold interval lower upper
    rw [hsignificand, if_pos rfl, Nat.mul_zero, Nat.zero_sub, Nat.cast_zero, zero_mul]
    exact ⟨le_rfl, by positivity⟩
  constructor
  · intro h
    exact magnitude_eq_of_mem h (hzero ⟨false, 0, by decide⟩ rfl)
  · exact hzero x

theorem ofMagnitude_eq (hx : x.isFinite = true) : ofMagnitude x.negative x.magnitude = x :=
  ext_magnitude rfl (Nat.min_eq_left (magnitude_lt_infinity hx).le)

/-- A double that has a quotient in its interval is what the quotient is rounded to. -/
theorem ofRatio_eq (hx : x.isFinite = true) (hden : 0 < den)
    (hr : (num / den : ℚ) ∈ x.interval) : ofRatio x.negative num den = x := by
  unfold ofRatio
  split
  · rename_i hzero
    rw [hzero, Nat.cast_zero, zero_div, zero_mem_interval_iff] at hr
    rw [← hr, ofMagnitude_eq hx]
  · rename_i hnum
    have hrounds := rounds_quotient (Nat.pos_of_ne_zero hnum) hden rfl
    have hfinite := hrounds.lt_infinity (lt_of_isFinite hx hr)
    let z : Double := ⟨x.negative, _, hfinite.trans (by decide)⟩
    have hz : z.magnitude = x.magnitude := magnitude_eq_of_mem (hrounds.mem_interval rfl) hr
    exact (congrArg (ofMagnitude x.negative) hz).trans (ofMagnitude_eq hx)

/-- What is not too large is rounded to a finite number and lies in its interval. -/
theorem ofRatio_spec (negative : Bool) (hden : 0 < den) (hless : (num / den : ℚ) < limit) :
    (ofRatio negative num den).isFinite = true ∧
      (num / den : ℚ) ∈ (ofRatio negative num den).interval := by
  unfold ofRatio
  split
  · rename_i hzero
    rw [hzero, Nat.cast_zero, zero_div, zero_mem_interval_iff]
    exact ⟨rfl, rfl⟩
  · rename_i hnum
    have hrounds := rounds_quotient (Nat.pos_of_ne_zero hnum) hden rfl
    have hfinite := hrounds.lt_infinity hless
    have hmagnitude := Nat.min_eq_left hfinite.le
    exact ⟨decide_eq_true (hmagnitude.trans_lt hfinite), hrounds.mem_interval hmagnitude⟩

/-- Quotients of one value are rounded to one number. -/
theorem ofRatio_congr (negative : Bool) {num' den' : Nat} (hden : 0 < den) (hden' : 0 < den')
    (hvalue : (num / den : ℚ) = num' / den') (hless : (num / den : ℚ) < limit) :
    ofRatio negative num den = ofRatio negative num' den' := by
  obtain ⟨hfinite, hmem⟩ := ofRatio_spec negative hden' (hvalue ▸ hless)
  have hsign : (ofRatio negative num' den').negative = negative := negative_ofRatio _ _ _
  have heq := ofRatio_eq hfinite hden (hvalue ▸ hmem)
  rwa [hsign] at heq

/-! ### Decimals and integers

A decimal is a quotient with a power of ten on one side.  The bounds below are about
exponents for which this power is not computed.
-/

theorem two_pow_lt_ten_pow : (2 : ℚ) ^ 1024 < 10 ^ (309 : Int) := by
  have h : 2 ^ 1024 < 10 ^ 309 := by decide +kernel
  exact_mod_cast h

theorem ten_pow_lt_two_pow : (10 : ℚ) ^ (-324 : Int) < 2 ^ (-1075 : Int) := by
  have h : 2 ^ 1075 < 10 ^ 324 := by decide +kernel
  rw [zpow_neg, zpow_neg]
  refine inv_strictAnti₀ (by positivity) ?_
  exact_mod_cast h

/-- Ten to this power is greater than the number. -/
theorem lt_ten_pow (n : Nat) : (n : ℚ) < 10 ^ ((n.log2 / 3 + 1 : Nat) : Int) := by
  have hlog : n < 2 ^ (n.log2 + 1) := Nat.lt_log2_self
  have hgrow : 2 ^ (n.log2 + 1) ≤ 2 ^ (3 * (n.log2 / 3 + 1)) :=
    Nat.pow_le_pow_right (by decide) (by omega)
  rw [pow_mul] at hgrow
  have hten : (2 ^ 3) ^ (n.log2 / 3 + 1) ≤ 10 ^ (n.log2 / 3 + 1) :=
    Nat.pow_le_pow_left (by decide) _
  rw [zpow_natCast]
  exact_mod_cast hlog.trans_le (hgrow.trans hten)

/-- Below half the least positive number there is only zero. -/
theorem magnitude_eq_zero (hr : r ∈ x.interval) (hnonneg : 0 ≤ r) (hsmall : r ≤ 2 ^ (-1075 : Int)) :
    x.magnitude = 0 := by
  let y : Double := ⟨false, 0, by decide⟩
  have hsignificand : y.significand = 0 := by decide
  have hexponent : y.scale - 2 = -1075 - 1 := by decide
  refine magnitude_eq_of_mem (y := y) hr ?_
  unfold interval lower upper
  rw [hsignificand, hexponent, if_pos rfl, zpow_sub_one₀ two_ne_zero]
  constructor
  · simpa using hnonneg
  · refine hsmall.trans_eq ?_
    generalize (2 : ℚ) ^ (-1075 : Int) = unit
    push_cast
    ring

/-- A decimal with too large an exponent is too large for a finite number. -/
theorem lt_decimal {digits : Nat} (hdigits : digits ≠ 0) {exponent : Int} (h : 309 ≤ exponent) :
    (2 : ℚ) ^ 1024 < digits * 10 ^ exponent := by
  have hone : (1 : ℚ) ≤ digits := by exact_mod_cast Nat.pos_of_ne_zero hdigits
  calc (2 : ℚ) ^ 1024 < 10 ^ (309 : Int) := two_pow_lt_ten_pow
    _ ≤ 10 ^ exponent := zpow_le_zpow_right₀ (by norm_num) h
    _ ≤ digits * 10 ^ exponent := le_mul_of_one_le_left (by positivity) hone

theorem decimal_le {digits : Nat} {exponent : Int}
    (h : exponent + (digits.log2 / 3 + 1 : Nat) ≤ -324) :
    (digits * 10 ^ exponent : ℚ) ≤ 2 ^ (-1075 : Int) := by
  calc (digits * 10 ^ exponent : ℚ)
      ≤ 10 ^ ((digits.log2 / 3 + 1 : Nat) : Int) * 10 ^ exponent := by
        gcongr
        exact (lt_ten_pow digits).le
    _ = 10 ^ (exponent + (digits.log2 / 3 + 1 : Nat)) := by
        rw [zpow_add₀ (by norm_num), mul_comm]
    _ ≤ 10 ^ (-324 : Int) := zpow_le_zpow_right₀ (by norm_num) h
    _ ≤ 2 ^ (-1075 : Int) := ten_pow_lt_two_pow.le

/-- A double that has a decimal in its interval is what the decimal is rounded to. -/
theorem ofDecimal_eq (hx : x.isFinite = true) {digits : Nat} {exponent : Int}
    (h : (digits * 10 ^ exponent : ℚ) ∈ x.interval) :
    ofDecimal x.negative digits exponent = x := by
  have hzero : x.magnitude = 0 → ofMagnitude x.negative 0 = x := by
    intro hmagnitude
    rw [← hmagnitude, ofMagnitude_eq hx]
  unfold ofDecimal
  split
  · rename_i hdigits
    rw [hdigits, Nat.cast_zero, zero_mul, zero_mem_interval_iff] at h
    exact hzero h
  · rename_i hdigits
    split
    · rename_i hlarge
      have hless := (lt_decimal hdigits hlarge).trans_le (lt_of_isFinite hx h).le
      rw [limit, show (2 : ℚ) ^ 1024 = 2 ^ 54 * 2 ^ (970 : Int) by
        rw [zpow_ofNat, ← pow_add]] at hless
      exact absurd (lt_of_mul_lt_mul_right hless (by positivity)) (by norm_num)
    · split
      · rename_i hsmall
        exact hzero (magnitude_eq_zero h (by positivity) (decimal_le hsmall))
      · refine ofRatio_eq hx (power_pos (by decide) _) ?_
        have hunit : (10 : ℚ) ^ (-exponent).toNat ≠ 0 := by positivity
        rw [power_eq_pow, power_eq_pow]
        push_cast
        rwa [← zpow_mul_toNat (by norm_num : (10 : ℚ) ≠ 0) exponent, ← mul_assoc,
          mul_div_cancel_right₀ _ hunit]

/-- A double that has an integer in its interval is what the integer is rounded to. -/
theorem ofInt_eq (hx : x.isFinite = true) {n : Int} (hsign : x.negative = decide (n < 0))
    (h : (n.natAbs : ℚ) ∈ x.interval) : ofInt n = x := by
  unfold ofInt
  rw [← hsign]
  refine ofRatio_eq hx Nat.one_pos ?_
  rwa [Nat.cast_one, div_one]

theorem ofInt_spec {n : Int} (hless : n.natAbs < 2 ^ 64) :
    (ofInt n).isFinite = true ∧ (n.natAbs : ℚ) ∈ (ofInt n).interval := by
  have hcast : ((n.natAbs : ℚ) / (1 : Nat)) < limit := by
    rw [Nat.cast_one, div_one]
    calc (n.natAbs : ℚ) < 2 ^ 64 := by exact_mod_cast hless
      _ ≤ (2 ^ 54 - 1) * 2 ^ (11 : Int) := by norm_num
      _ ≤ limit := by
        unfold limit
        gcongr <;> norm_num
  have hspec := ofRatio_spec (decide (n < 0)) Nat.one_pos hcast
  rwa [Nat.cast_one, div_one] at hspec

theorem negative_ofInt (n : Int) : (ofInt n).negative = decide (n < 0) := negative_ofRatio _ _ _

end Double

end FieldQuery

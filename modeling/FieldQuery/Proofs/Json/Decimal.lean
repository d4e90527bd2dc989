/-
Digits that are read as numbers.

Digits are taken on as long as the number that they make fits into 64 bits.  So either all digits
of a number are read, and then it is the number that they stand for, or the number does not fit:
`takeDigits_eq_nil_iff`.  The places behind the dot and the exponent scale the number that has
been read, `decimal?_of_lt`.

This is not always the double nearest to the decimal.  It is where the digits make a number below
`2 ^ 53` and the exponent is at most 22 to either side, `decimal?_eq_ofDecimal`, which covers
decimals of up to fifteen digits with up to 22 places behind the dot.  What is read is always
finite, since a number that becomes too large is refused: `isFinite_of_decimal?`.

Digits without a fraction are an integer where they fit into one, and the same float as any other
decimal where they do not, `integer?_eq`.
-/
import FieldQuery.Proofs.Json.Grammar
import FieldQuery.Proofs.Numeric.Scaled

namespace FieldQuery

namespace Double

variable {negative : Bool} {num den : Nat} {exponent : Int}

/-! ### Signs

A decimal is read without its sign, which is put in front of what the digits make.  Rounding does
not look at the sign, so the result is what rounding with the sign would give.
-/

theorem withSign_ofRatio :
    (ofRatio false num den).withSign negative = ofRatio negative num den := by
  unfold ofRatio
  split <;> rfl

theorem withSign_ofInt (n : Nat) : (ofInt n).withSign negative = ofRatio negative n 1 := by
  have hsign : decide ((n : Int) < 0) = false := decide_eq_false (by omega)
  rw [ofInt, hsign, Int.natAbs_natCast, withSign_ofRatio]

theorem withSign_ofDecimal {digits : Nat} :
    (ofDecimal false digits exponent).withSign negative = ofDecimal negative digits exponent := by
  unfold ofDecimal
  split
  · rfl
  · split
    · rfl
    · split
      · rfl
      · exact withSign_ofRatio

theorem isFinite_withSign {x : Double} : (x.withSign negative).isFinite = x.isFinite := rfl

end Double

namespace Json

variable {negative : Bool} {digits whole fraction : List Char} {exponent : Int} {n m : Nat}

/-! ### Digits that are taken on

The number that is built grows with every digit, so if it fits in the end it has fitted all the
way.
-/

theorem le_ofDigitChars (digits : List Char) (n : Nat) : n ≤ Nat.ofDigitChars 10 digits n := by
  induction digits generalizing n with
  | nil => exact Nat.le_refl n
  | cons c rest ih =>
      rw [Nat.ofDigitChars_cons]
      exact Nat.le_trans (by omega) (ih _)

/-- What is read of digits fits into 64 bits. -/
theorem fst_takeDigits_lt (hn : n < 2 ^ 64) (digits : List Char) :
    (takeDigits n digits).1 < 2 ^ 64 := by
  fun_induction takeDigits n digits with
  | case1 | case3 => exact hn
  | case2 n c rest more hmore ih => exact ih hmore

/-- All digits are read exactly if the number that they stand for fits. -/
theorem takeDigits_eq_nil_iff (hn : n < 2 ^ 64) :
    takeDigits n digits = (m, []) ↔ Nat.ofDigitChars 10 digits n = m ∧ m < 2 ^ 64 := by
  fun_induction takeDigits n digits with
  | case1 n =>
      rw [Prod.mk.injEq, Nat.ofDigitChars_nil]
      constructor
      · rintro ⟨rfl, -⟩
        exact ⟨rfl, hn⟩
      · rintro ⟨rfl, -⟩
        exact ⟨rfl, rfl⟩
  | case2 n c rest more hmore ih =>
      rw [ih hmore, Nat.ofDigitChars_cons]
  | case3 n c rest more hmore =>
      refine iff_of_false (by simp) fun h => hmore ?_
      have hle := le_ofDigitChars rest more
      rw [Nat.ofDigitChars_cons] at h
      exact Nat.lt_of_le_of_lt hle (h.1 ▸ h.2)

theorem takeDigits_zero (h : Digits.toNat digits < 2 ^ 64) :
    takeDigits 0 digits = (Digits.toNat digits, []) :=
  (takeDigits_eq_nil_iff (by decide)).mpr ⟨rfl, h⟩

theorem toNat_append (whole fraction : List Char) :
    Digits.toNat (whole ++ fraction) = Nat.ofDigitChars 10 fraction (Digits.toNat whole) :=
  Nat.ofDigitChars_append _

/-! ### Decimals

What is read of a decimal is the number of its digits, scaled.  Where that number is
exact and one power of ten is exact as well, a single operation rounds, and the result
is the nearest double.
-/

theorem decimal?_of_lt (h : Digits.toNat (whole ++ fraction) < 2 ^ 64) :
    decimal? negative whole fraction exponent =
      ((Double.ofInt (Digits.toNat (whole ++ fraction))).scaled?
        (exponent - fraction.length)).map (Double.withSign negative) := by
  have hwhole : Digits.toNat whole < 2 ^ 64 := by
    rw [toNat_append] at h
    exact Nat.lt_of_le_of_lt (le_ofDigitChars _ _) h
  have hfraction : takeDigits (Digits.toNat whole) fraction =
      (Digits.toNat (whole ++ fraction), []) :=
    (takeDigits_eq_nil_iff hwhole).mpr ⟨(toNat_append _ _).symm, h⟩
  rw [decimal?, takeDigits_zero hwhole]
  simp [hfraction]

/-- **Common decimals are read as the nearest double.** -/
theorem decimal?_eq_ofDecimal (hdigits : Digits.toNat (whole ++ fraction) < 2 ^ 53)
    (hlow : -22 ≤ exponent - fraction.length) (hhigh : exponent - fraction.length ≤ 22) :
    decimal? negative whole fraction exponent =
      some (Double.ofDecimal negative (Digits.toNat (whole ++ fraction))
        (exponent - fraction.length)) := by
  rw [decimal?_of_lt (by omega), Double.scaled?_eq_ofDecimal hdigits hlow hhigh, Option.map_some,
    Double.withSign_ofDecimal]

/-- With sixteen digits it may be the double next to it. -/
example : decimal? false ['0'] "9007199254740993".toList 0 ≠
    some (.ofDecimal false 9007199254740993 (-16)) := by
  decide +kernel

/-- Digits without a fraction are read as the nearest double while they fit. -/
theorem decimal?_whole (h : Digits.toNat whole < 2 ^ 64) :
    decimal? negative whole [] 0 = some (Double.ofRatio negative (Digits.toNat whole) 1) := by
  have hfinite := (Double.ofInt_spec (n := Digits.toNat whole) (by omega)).1
  have hsign : (Double.ofInt (Digits.toNat whole)).negative = false := by
    rw [Double.negative_ofInt]
    exact decide_eq_false (by omega)
  rw [decimal?_of_lt (by rwa [List.append_nil]), List.append_nil, List.length_nil, Nat.cast_zero,
    sub_zero, Double.scaled?_zero hfinite hsign, Option.map_some, Double.withSign_ofInt]

/-- **A float that is read is finite.** -/
theorem isFinite_of_decimal? {x : Double}
    (h : decimal? negative whole fraction exponent = some x) : x.isFinite = true := by
  obtain ⟨y, hscaled, rfl⟩ := Option.map_eq_some_iff.mp h
  have hfront := fst_takeDigits_lt (n := 0) (by decide) whole
  have hless := fst_takeDigits_lt hfront fraction
  rw [Double.isFinite_withSign]
  exact Double.isFinite_of_scaled? (Double.ofInt_spec (by rwa [Int.natAbs_natCast])).1 hscaled

/-! ### Integers

The reader takes an integer where 64 bits hold it and reads all others as floats.  There
is one way to read a float, so a long integer is read as the same digits with a dot
behind them are.
-/

instance (negative : Bool) (n : Nat) : Decidable (FitsInteger negative n) :=
  inferInstanceAs (Decidable (if negative then _ else _))

theorem FitsInteger.lt (h : FitsInteger negative n) : n < 2 ^ 64 := by
  unfold FitsInteger at h
  split at h <;> omega

/-- **Digits without a fraction are an integer if they fit, and else read like all others.** -/
theorem integer?_eq (negative : Bool) (digits : List Char) :
    integer? negative digits =
      if FitsInteger negative (Digits.toNat digits) then
        some (.integer (Digits.toInt negative digits))
      else (decimal? negative digits [] 0).map .float := by
  rcases Nat.lt_or_ge (Digits.toNat digits) (2 ^ 64) with hless | hlarge
  · rw [integer?, takeDigits_zero hless, decimal?_whole hless, Digits.toInt]
    cases negative with
    | false =>
        have hfits : FitsInteger false (Digits.toNat digits) := hless
        rw [if_pos hfits]
        rfl
    | true =>
        by_cases hfits : FitsInteger true (Digits.toNat digits)
        · have hboth : 0 < Digits.toNat digits ∧ Digits.toNat digits ≤ 0x8000000000000000 := hfits
          have hrange : ¬(Digits.toNat digits = 0 ∨ 0x8000000000000000 < Digits.toNat digits) := by
            omega
          rw [if_pos hfits]
          exact if_neg hrange
        · have hrange : Digits.toNat digits = 0 ∨ 0x8000000000000000 < Digits.toNat digits := by
            by_contra hnone
            exact hfits ⟨by omega, by omega⟩
          rw [if_neg hfits, ← Double.withSign_ofInt]
          exact if_pos hrange
  · rw [if_neg fun hfits => Nat.not_lt.mpr hlarge hfits.lt]
    unfold integer?
    split
    · rename_i m htake
      obtain ⟨rfl, hless⟩ := (takeDigits_eq_nil_iff (by decide)).mp htake
      exact absurd hless (Nat.not_lt.mpr hlarge)
    · rfl

end Json

end FieldQuery

/-
Texts of numbers.

A number that is not NaN is determined by its text.  A positional text is read back by
counting the places behind its dot, `Decimal.read_text`, so equal texts mean decimals of
the same value, and no two magnitudes cover the same value.  The sign is the only minus
there is.

Reading back is exact here and has nothing to do with the reader of JSON, which rounds:
the text gives a rational number, and this lies in the interval of one magnitude.

The texts are made of digits, dots, signs and a few letters; there is no line break
among them.
-/
import FieldQuery.Proofs.Numeric.Interval
import Mathlib.Data.List.TakeWhile

namespace FieldQuery

/-! ### Integers -/

namespace Digits

theorem ofNat_injective {m n : Nat} (h : ofNat m = ofNat n) : m = n := by
  rw [← toNat_ofNat m, h, toNat_ofNat]

theorem minus_notMem_ofNat (n : Nat) : '-' ∉ ofNat n :=
  fun hmem => absurd (isDigit_of_mem_ofNat hmem) (by decide)

theorem ofInt_injective {m n : Int} (h : ofInt m = ofInt n) : m = n := by
  unfold ofInt at h
  split at h <;> split at h
  · have habs := ofNat_injective (List.cons.inj h).2
    omega
  · exact absurd (h ▸ List.mem_cons_self) (minus_notMem_ofNat _)
  · exact absurd (h ▸ List.mem_cons_self) (minus_notMem_ofNat _)
  · have habs := ofNat_injective h
    omega

/-- Zeros in front do not count. -/
theorem toNat_zeros_append (n : Nat) (digits : List Char) :
    toNat (List.replicate n '0' ++ digits) = toNat digits := by
  unfold toNat
  rw [Nat.ofDigitChars_append, Nat.ofDigitChars_replicate_zero, Nat.mul_zero]

/-- Zeros behind shift the other digits. -/
theorem toNat_append_zeros (n : Nat) (digits : List Char) :
    toNat (digits ++ List.replicate n '0') = toNat digits * 10 ^ n := by
  unfold toNat
  rw [Nat.ofDigitChars_append, Nat.ofDigitChars_replicate_zero, Nat.mul_comm]

end Digits

/-! ### Decimals

A decimal is padded with zeros until there is a digit in front of its dot, or shifted
with zeros if it has none.  Zeros in front count for nothing and zeros behind are the
shift, so the digits as a number and the places behind the dot are all there is to read.
-/

namespace Decimal

/-- The number that a positional text stands for. -/
def read (cs : List Char) : ℚ :=
  Digits.toNat (cs.filter Char.isDigit) * 10 ^ (-((cs.dropWhile (· != '.')).tail.length : Int))

theorem ne_dot_of_isDigit {cs : List Char} (h : ∀ c ∈ cs, c.isDigit = true) :
    ∀ c ∈ cs, (c != '.') = true := by
  intro c hc
  rw [bne_iff_ne]
  rintro rfl
  exact absurd (h _ hc) (by decide)

theorem read_digits {cs : List Char} (h : ∀ c ∈ cs, c.isDigit = true) :
    read cs = Digits.toNat cs := by
  unfold read
  rw [List.filter_eq_self.mpr h, List.dropWhile_eq_nil_iff.mpr (ne_dot_of_isDigit h)]
  simp

theorem read_dotted {whole fraction : List Char} (hwhole : ∀ c ∈ whole, c.isDigit = true)
    (hfraction : ∀ c ∈ fraction, c.isDigit = true) :
    read (whole ++ '.' :: fraction) =
      Digits.toNat (whole ++ fraction) * 10 ^ (-(fraction.length : Int)) := by
  unfold read
  have hdrop : (whole ++ '.' :: fraction).dropWhile (· != '.') = '.' :: fraction := by
    rw [List.dropWhile_append_of_pos (ne_dot_of_isDigit hwhole)]
    rfl
  have hfilter : (whole ++ '.' :: fraction).filter Char.isDigit = whole ++ fraction := by
    rw [List.filter_append, List.filter_eq_self.mpr hwhole,
      List.filter_cons_of_neg (by decide), List.filter_eq_self.mpr hfraction]
  rw [hdrop, hfilter, List.tail_cons]

/-- The digits with zeros in front, so that there are more of them than places behind the
dot. -/
def padded (d : Decimal) : List Char :=
  List.replicate ((-d.exponent).toNat + 1 - (Digits.ofNat d.digits).length) '0' ++
    Digits.ofNat d.digits

theorem isDigit_of_mem_replicate {n : Nat} {c : Char} (hc : c ∈ List.replicate n '0') :
    c.isDigit = true := by
  rw [List.eq_of_mem_replicate hc]
  rfl

theorem isDigit_of_mem_padded {d : Decimal} {c : Char} (hc : c ∈ d.padded) :
    c.isDigit = true := by
  rcases List.mem_append.mp hc with hc | hc
  · exact isDigit_of_mem_replicate hc
  · exact Digits.isDigit_of_mem_ofNat hc

/-- A decimal is written with digits alone, or with a dot and as many places behind it as its
exponent asks for. -/
theorem text_eq (d : Decimal) : ∃ whole fraction : List Char,
    (∀ c ∈ whole, c.isDigit = true) ∧ (∀ c ∈ fraction, c.isDigit = true) ∧
      (0 ≤ d.exponent ∧ d.text = whole ∧
          Digits.toNat whole = d.digits * 10 ^ d.exponent.toNat ∨
        d.exponent < 0 ∧ d.text = whole ++ '.' :: fraction ∧
          Digits.toNat (whole ++ fraction) = d.digits ∧ (fraction.length : Int) = -d.exponent) := by
  by_cases hexponent : 0 ≤ d.exponent
  · refine ⟨Digits.ofNat d.digits ++ List.replicate d.exponent.toNat '0', [], ?_, by simp,
      .inl ⟨hexponent, if_pos hexponent, ?_⟩⟩
    · intro c hc
      rcases List.mem_append.mp hc with hc | hc
      · exact Digits.isDigit_of_mem_ofNat hc
      · exact isDigit_of_mem_replicate hc
    · rw [Digits.toNat_append_zeros, Digits.toNat_ofNat]
  · have hlong : (-d.exponent).toNat < d.padded.length := by
      rw [padded, List.length_append, List.length_replicate]
      omega
    refine ⟨d.padded.take (d.padded.length - (-d.exponent).toNat),
      d.padded.drop (d.padded.length - (-d.exponent).toNat),
      fun c hc => isDigit_of_mem_padded (List.mem_of_mem_take hc),
      fun c hc => isDigit_of_mem_padded (List.mem_of_mem_drop hc),
      .inr ⟨by omega, if_neg hexponent, ?_, ?_⟩⟩
    · rw [List.take_append_drop, padded, Digits.toNat_zeros_append, Digits.toNat_ofNat]
    · rw [List.length_drop]
      omega

theorem read_text (d : Decimal) : read d.text = d.value := by
  obtain ⟨whole, fraction, hwhole, hfraction, hcases⟩ := d.text_eq
  unfold value
  rcases hcases with ⟨hexponent, htext, hdigits⟩ | ⟨-, htext, hdigits, hplaces⟩
  · rw [htext, read_digits hwhole, hdigits, Nat.cast_mul, Nat.cast_pow, ← zpow_natCast,
      Int.toNat_of_nonneg hexponent]
    norm_num
  · rw [htext, read_dotted hwhole hfraction, hdigits, hplaces, neg_neg]

theorem mem_text {d : Decimal} {c : Char} (hc : c ∈ d.text) : c.isDigit = true ∨ c = '.' := by
  obtain ⟨whole, fraction, hwhole, hfraction, hcases⟩ := d.text_eq
  rcases hcases with ⟨-, htext, -⟩ | ⟨-, htext, -⟩
  · rw [htext] at hc
    exact .inl (hwhole c hc)
  · rw [htext, List.mem_append, List.mem_cons] at hc
    rcases hc with hc | rfl | hc
    · exact .inl (hwhole c hc)
    · exact .inr rfl
    · exact .inl (hfraction c hc)

end Decimal

/-! ### Doubles

Infinity is the one magnitude that is written with letters, and no decimal has any.
-/

namespace Double

/-- The text of a magnitude. -/
def unsignedText (x : Double) : List Char :=
  if x.isFinite then x.shortest.text else "inf".toList

theorem toList_text {x : Double} (h : x.isNaN = false) :
    x.text.toList = (if x.negative then ['-'] else []) ++ x.unsignedText := by
  unfold text unsignedText
  rw [h]
  cases x.negative <;> cases x.isFinite <;> simp

theorem mem_unsignedText {x : Double} {c : Char} (hc : c ∈ x.unsignedText) :
    c.isDigit = true ∨ c ∈ ".inf".toList := by
  unfold unsignedText at hc
  split at hc
  · rcases Decimal.mem_text hc with hdigit | rfl
    · exact .inl hdigit
    · exact .inr (by decide)
  · exact .inr (List.mem_cons_of_mem _ hc)

/-- The magnitude of a number is determined by its text. -/
theorem unsignedText_injective {x y : Double} (hx : x.isNaN = false) (hy : y.isNaN = false)
    (h : x.unsignedText = y.unsignedText) : x.magnitude = y.magnitude := by
  have hfinite : ∀ z : Double, z.isFinite = true → 'i' ∉ z.unsignedText := by
    intro z hz hmem
    unfold unsignedText at hmem
    rw [if_pos hz] at hmem
    rcases Decimal.mem_text hmem with hdigit | hdot
    · exact absurd hdigit (by decide)
    · exact absurd hdot (by decide)
  have hinfinite : ∀ z : Double, z.isFinite = false → 'i' ∈ z.unsignedText := by
    intro z hz
    unfold unsignedText
    rw [if_neg (Bool.eq_false_iff.mp hz)]
    decide
  cases hxf : x.isFinite <;> cases hyf : y.isFinite
  · unfold isNaN at hx hy
    unfold isFinite at hxf hyf
    rw [decide_eq_false_iff_not] at hx hy hxf hyf
    omega
  · exact absurd (h ▸ hinfinite x hxf) (hfinite y hyf)
  · exact absurd (h ▸ hinfinite y hyf) (hfinite x hxf)
  · unfold unsignedText at h
    rw [if_pos hxf, if_pos hyf] at h
    have hvalue : x.shortest.value = y.shortest.value := by
      rw [← Decimal.read_text, h, Decimal.read_text]
    exact magnitude_eq_of_mem x.shortest_mem_interval (hvalue ▸ y.shortest_mem_interval)

/-- **The text identifies the number**, the sign of zero included. -/
theorem text_injective {x y : Double} (hx : x.isNaN = false) (hy : y.isNaN = false)
    (h : x.text = y.text) : x = y := by
  have hlists := congrArg String.toList h
  rw [toList_text hx, toList_text hy] at hlists
  have hminus : ∀ z : Double, '-' ∉ z.unsignedText := by
    intro z hmem
    rcases mem_unsignedText hmem with hdigit | hother
    · exact absurd hdigit (by decide)
    · exact absurd hother (by decide)
  have hequal : x.negative = y.negative ∧ x.unsignedText = y.unsignedText := by
    cases hxn : x.negative <;> cases hyn : y.negative <;>
      simp only [hxn, hyn, Bool.false_eq_true, if_false, if_true, List.nil_append,
        List.singleton_append] at hlists
    · exact ⟨rfl, hlists⟩
    · exact absurd (hlists ▸ List.mem_cons_self) (hminus x)
    · exact absurd (hlists ▸ List.mem_cons_self) (hminus y)
    · exact ⟨rfl, (List.cons.inj hlists).2⟩
  have hmagnitude := unsignedText_injective hx hy hequal.2
  cases x
  cases y
  obtain rfl := hequal.1
  obtain rfl := hmagnitude
  rfl

/-- Texts of numbers stand on one line. -/
theorem newline_notMem_text (x : Double) : '\n' ∉ x.text.toList := by
  cases hx : x.isNaN with
  | true =>
      unfold text
      rw [if_pos hx]
      decide
  | false =>
      rw [toList_text hx, List.mem_append, not_or]
      refine ⟨by split <;> decide, fun hmem => ?_⟩
      rcases mem_unsignedText hmem with hdigit | hother
      · exact absurd hdigit (by decide)
      · exact absurd hother (by decide)

end Double

end FieldQuery

/-
Floats that are read back.

The text of a finite float is that of a JSON number, so it is read, and what it is read
as depends on two things.  Without a dot in it, it is an integer if it fits into 64
bits, with or without sign; negative zero, which no integer is, stays a float.
Everything else is read as what its digits make, `reading?`, which is another float than
the one that was written if its digits are too many for quick reading, and none at all
if it becomes too large.

A float is stable if its digits make the float itself.  All whole numbers of 64 bits
are, and all numbers whose digits make a number below `2 ^ 53`, with up to 22 of them
behind the dot.  Stable floats can still be read as integers, but then the integer is
rounded to them.

That the digits which are written determine the float among all doubles is another matter,
and it holds of all of them.  A reader that rounded exactly would need no notion of stable
floats.
-/
import FieldQuery.Proofs.Json.Numeral
import FieldQuery.Proofs.Numeric.Text

namespace FieldQuery

namespace Double

/-- The float that the digits of a text make, if it is not too large. -/
def reading? (x : Double) : Option Double :=
  Json.decimal? x.negative (x.shortest.text.takeWhile Char.isDigit)
    (x.shortest.text.dropWhile Char.isDigit).tail 0

/-- Whether the digits of its text make the float itself. -/
def Stable (x : Double) : Prop := x.reading? = some x

instance (x : Double) : Decidable x.Stable := inferInstanceAs (Decidable (_ = _))

end Double

namespace Json

/-- What the text of a scalar is read as, if it is one that a JSON value can hold and is not
refused. -/
def Scalar.reread? : Scalar → Option Scalar
  | .float x =>
    match x.whole? with
    | none => x.reading?.map .float
    | some n =>
      if FitsInteger x.negative n.natAbs then some (.integer n) else x.reading?.map .float
  | s => some s

/-! ### Digits before the dot

A positional text never begins with a needless zero: zeros are written in front of the digits only
where the places behind the dot ask for them, and then one of them stands before the dot.
-/

theorem wholePart_text_of_nonneg {d : Decimal} (hexponent : 0 ≤ d.exponent)
    (h : d.digits = 0 → d.exponent = 0) : WholePart d.text := by
  have htext : d.text = Digits.ofNat d.digits ++ List.replicate d.exponent.toNat '0' :=
    if_pos hexponent
  have hne : Digits.ofNat d.digits ≠ [] := Nat.toDigits_ne_nil
  have hall : ∀ c ∈ d.text, c.isDigit = true := by
    intro c hc
    rcases List.mem_append.mp (htext ▸ hc) with hc | hc
    · exact Digits.isDigit_of_mem_ofNat hc
    · exact Decimal.isDigit_of_mem_replicate hc
  refine ⟨⟨by simp [htext, hne], hall⟩, ?_⟩
  rw [htext]
  rcases Nat.eq_zero_or_pos d.digits with hzero | hpos
  · rw [h hzero, hzero]
    exact .inl rfl
  · rw [List.head?_append_of_ne_nil _ hne]
    exact .inr (Digits.head?_ofNat_ne_zero hpos)

theorem wholePart_text_of_neg {d : Decimal} (hexponent : d.exponent < 0) :
    WholePart (d.padded.take (d.padded.length - (-d.exponent).toNat)) := by
  obtain ⟨places, hplaces⟩ : ∃ places, places = (-d.exponent).toNat := ⟨_, rfl⟩
  have hpadded : d.padded = List.replicate (places + 1 - (Digits.ofNat d.digits).length) '0' ++
      Digits.ofNat d.digits := by
    rw [Decimal.padded, hplaces]
  have hlonger : places < d.padded.length := by
    rw [hpadded, List.length_append, List.length_replicate]
    omega
  have hall : ∀ c ∈ d.padded.take (d.padded.length - places), c.isDigit = true :=
    fun c hc => Decimal.isDigit_of_mem_padded (List.mem_of_mem_take hc)
  rw [← hplaces]
  refine ⟨⟨fun hnil => ?_, hall⟩, ?_⟩
  · rcases List.take_eq_nil_iff.mp hnil with hzero | hempty
    · omega
    · simp [hempty] at hlonger
  rcases Nat.lt_or_ge places (Digits.ofNat d.digits).length with hlong | hshort
  · have hpos : 0 < d.digits := by
      refine Nat.pos_of_ne_zero fun hzero => ?_
      rw [hzero] at hlong
      exact absurd (show places < 1 from hlong) (by omega)
    rw [List.head?_take, if_neg (by omega), hpadded,
      show places + 1 - (Digits.ofNat d.digits).length = 0 by omega, List.replicate_zero,
      List.nil_append]
    exact .inr (Digits.head?_ofNat_ne_zero hpos)
  · -- zeros fill the places, and one of them stands before the dot
    have hlength : d.padded.length = places + 1 := by
      rw [hpadded, List.length_append, List.length_replicate]
      omega
    rw [hlength, Nat.add_sub_cancel_left, hpadded,
      show places + 1 - (Digits.ofNat d.digits).length =
        places - (Digits.ofNat d.digits).length + 1 by omega, List.replicate_succ]
    exact .inl rfl

theorem dot_stops (rest : List Char) : ∀ c ∈ ('.' :: rest).head?, c.isDigit = false := by
  intro c hc
  obtain rfl := Option.some.inj hc
  rfl

/-- The text of a shortest decimal has the parts of a number. -/
theorem shortest_parts (x : Double) : ∃ whole digits, WholePart whole ∧
    (0 ≤ x.shortest.exponent ∧ x.shortest.text = whole ∧
        Digits.toNat whole = x.shortest.digits * 10 ^ x.shortest.exponent.toNat ∨
      x.shortest.exponent < 0 ∧ x.shortest.text = whole ++ '.' :: digits ∧ AreDigits digits ∧
        Digits.toNat (whole ++ digits) = x.shortest.digits ∧
          (digits.length : Int) = -x.shortest.exponent) := by
  obtain ⟨whole, digits, hwhole, hdigits, hcases⟩ := x.shortest.text_eq
  rcases hcases with ⟨hexponent, htext, hvalue⟩ | ⟨hexponent, htext, hvalue, hplaces⟩
  · have hpart := wholePart_text_of_nonneg hexponent Double.exponent_eq_zero_of_digits
    exact ⟨whole, digits, htext ▸ hpart, .inl ⟨hexponent, htext, hvalue⟩⟩
  · have hne : digits ≠ [] := by
      rintro rfl
      simp at hplaces
      omega
    have hpart := wholePart_text_of_neg hexponent
    have hsame : x.shortest.padded.take
        (x.shortest.padded.length - (-x.shortest.exponent).toNat) = whole := by
      -- both are what is taken of the text up to its dot
      have hfront := Text.takeWhile_stop hpart.1.2 (dot_stops (x.shortest.padded.drop
        (x.shortest.padded.length - (-x.shortest.exponent).toNat)))
      rw [← hfront, ← Text.takeWhile_stop hwhole (dot_stops digits), ← htext]
      exact congrArg _ (if_neg (not_le.mpr hexponent)).symm
    exact ⟨whole, digits, hsame ▸ hpart,
      .inr ⟨hexponent, htext, ⟨hne, hdigits⟩, hvalue, hplaces⟩⟩

/-! ### Stable floats

The digits of a float are those of the shortest decimal in its interval.  If reading
them rounds only once, it rounds to the float whose interval this is.
-/

variable {x : Double} {whole digits : List Char}

theorem reading?_whole (hwhole : WholePart whole) (htext : x.shortest.text = whole) :
    x.reading? = decimal? x.negative whole [] 0 := by
  rw [Double.reading?, htext, List.takeWhile_eq_self_iff.mpr hwhole.1.2,
    List.dropWhile_eq_nil_iff.mpr hwhole.1.2, List.tail_nil]

theorem reading?_dotted (hwhole : WholePart whole)
    (htext : x.shortest.text = whole ++ '.' :: digits) :
    x.reading? = decimal? x.negative whole digits 0 := by
  rw [Double.reading?, htext, Text.takeWhile_stop hwhole.1.2 (dot_stops digits),
    Text.dropWhile_stop hwhole.1.2 (dot_stops digits), List.tail_cons]

theorem isFinite_of_stable (h : x.Stable) : x.isFinite = true := isFinite_of_decimal? h

/-- **Whole numbers of 64 bits are stable.** -/
theorem stable_of_whole? (hx : x.isFinite = true) {n : Int} (h : x.whole? = some n)
    (hn : n.natAbs < 2 ^ 64) : x.Stable := by
  obtain ⟨hexponent, habs, -⟩ := Double.eq_of_whole? h
  obtain ⟨whole, digits, hwhole, hcases⟩ := shortest_parts x
  rcases hcases with ⟨-, htext, hvalue⟩ | ⟨hnegative, -, -, -, -⟩
  · have hnumber : Digits.toNat whole = n.natAbs := hvalue.trans habs.symm
    rw [Double.Stable, reading?_whole hwhole htext, decimal?_whole (by rwa [hnumber]), hnumber]
    refine congrArg some (Double.ofRatio_eq hx Nat.one_pos ?_)
    rw [Nat.cast_one, div_one]
    exact Double.mem_interval_of_whole? h
  · omega

/-- **Short decimals are stable.** -/
theorem stable_of_short (hx : x.isFinite = true) (hdigits : x.shortest.digits < 2 ^ 53)
    (hlow : -22 ≤ x.shortest.exponent) (hhigh : x.shortest.exponent < 0) : x.Stable := by
  obtain ⟨whole, digits, hwhole, hcases⟩ := shortest_parts x
  rcases hcases with ⟨hnonneg, -, -⟩ | ⟨-, htext, -, hvalue, hplaces⟩
  · omega
  · have hexponent : (0 : Int) - digits.length = x.shortest.exponent := by omega
    rw [Double.Stable, reading?_dotted hwhole htext,
      decimal?_eq_ofDecimal (by rwa [hvalue]) (by omega) (by omega), hvalue, hexponent]
    exact congrArg some (Double.ofDecimal_eq hx x.shortest_mem_interval)

/-- The float next to the one that its digits make, and the greatest float, whose digits make one
that is too large. -/
example : Double.reading? ⟨false, 0x3fecd2b297d889bd, by decide⟩ =
      some ⟨false, 0x3fecd2b297d889bc, by decide⟩ ∧
    Double.reading? ⟨false, 0x7fefffffffffffff, by decide⟩ = none := by
  decide +kernel

/-! ### Texts of floats

The text of a float is a run of characters, so what it is read as is what this run is
read as.  A sign in front of it is part of the run.
-/

theorem toList_text (hx : x.isFinite = true) :
    x.text.toList = minus x.negative ++ x.shortest.text := by
  rw [Double.toList_text (Double.isNaN_of_isFinite hx), Double.unsignedText, if_pos hx]
  rfl

/-- **What the text of a finite float is read as.** -/
theorem ofRun?_text (hx : x.isFinite = true) :
    ofRun? x.text.toList = Scalar.reread? (.float x) := by
  obtain ⟨whole, digits, hwhole, hcases⟩ := shortest_parts x
  rw [toList_text hx]
  rcases hcases with ⟨hexponent, htext, hvalue⟩ | ⟨hexponent, htext, hdigits, -, -⟩
  · have hnumber : x.whole? = some (Digits.toInt x.negative whole) := by
      rw [Double.whole?, if_neg (not_lt.mpr hexponent), Digits.toInt, hvalue]
      rfl
    have habs : (Digits.toInt x.negative whole).natAbs = Digits.toNat whole := by
      unfold Digits.toInt
      split <;> omega
    have hparts := ofRun?_parts x.negative hwhole .none .none
    rw [List.append_nil, List.append_nil] at hparts
    rw [htext, hparts, Scalar.reread?, hnumber, reading?_whole hwhole htext]
    simp only [habs, true_and]
  · have hparts := ofRun?_parts x.negative hwhole (.some hdigits) .none
    rw [List.append_nil, if_neg fun h => List.cons_ne_nil _ _ h.1] at hparts
    rw [htext, hparts, Scalar.reread?, Double.whole?, if_pos hexponent,
      reading?_dotted hwhole htext]

theorem isRunChar_of_mem_text (hx : x.isFinite = true) {c : Char} (h : c ∈ x.text.toList) :
    isRunChar c = true := by
  rw [toList_text hx] at h
  rcases List.mem_append.mp h with hsign | htext
  · exact isRunChar_of_mem_minus hsign
  · rcases Decimal.mem_text htext with hdigit | rfl
    · exact isRunChar_of_isDigit hdigit
    · rfl

theorem text_ne_nil (hx : x.isFinite = true) : x.text.toList ≠ [] := by
  obtain ⟨whole, digits, hwhole, hcases⟩ := shortest_parts x
  rw [toList_text hx]
  refine List.append_ne_nil_of_right_ne_nil _ ?_
  rcases hcases with ⟨-, htext, -⟩ | ⟨-, htext, -, -, -⟩ <;> rw [htext]
  · exact hwhole.1.1
  · simp

end Json

end FieldQuery

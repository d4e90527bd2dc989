/-
Numbers that are read.

A number is taken apart where its digits end: what stands in front is the whole part, and behind
it there is nothing, or a dot, or the letter of an exponent.  So the parts that the grammar names
are the parts that the reader finds, `unsigned?_parts`, and if the reader finds anything, the text
has these parts, `exists_parts`.  Both together make `number?_iff`.

The whole part must not begin with a needless zero, and this is all that can be wrong with it.
Integers are written without one, so the text of an integer is a number of the grammar, and if the
integer fits it is read as itself, `number?_ofInt`.
-/
import FieldQuery.Proofs.Json.Decimal
import FieldQuery.Proofs.Text.Runs

namespace FieldQuery

/-- No number but zero begins with a zero. -/
theorem Digits.head?_ofNat_ne_zero {n : Nat} (h : 0 < n) : (ofNat n).head? ≠ some '0' := by
  induction n using Nat.strongRecOn with
  | ind n ih =>
      by_cases hsmall : n < 10
      · have hall : ∀ m < 10, 0 < m → Nat.digitChar m ≠ '0' := by decide
        rw [ofNat, Nat.toDigits_of_lt_base hsmall, List.head?_cons]
        intro heq
        exact hall n hsmall h (Option.some.inj heq)
      · have hfront := ih (n / 10) (by omega) (by omega)
        rw [ofNat] at hfront ⊢
        rw [Nat.toDigits_of_base_le (by decide) (by omega), List.head?_append]
        obtain ⟨c, rest, hdigits⟩ := List.exists_cons_of_ne_nil
          (Nat.toDigits_ne_nil : Nat.toDigits 10 (n / 10) ≠ [])
        rw [hdigits] at hfront ⊢
        exact hfront

namespace Json

variable {negative : Bool} {mark : Char} {cs whole fraction digits power text : List Char}
  {exponent : Int} {s : Scalar}

/-! ### The parts of a number

The reader cuts at the first character that is no digit, and looks there for a dot or a
letter. The parts of the grammar begin with just these characters, so there is one way
to cut.
-/

theorem wholePart_iff : WholePart cs ↔ (∀ c ∈ cs, c.isDigit = true) ∧ isWhole cs = true := by
  unfold WholePart AreDigits
  cases cs with
  | nil => simp [isWhole]
  | cons c rest =>
      cases rest with
      | nil =>
          have hzero : [c] = ['0'] ∨ [c].head? ≠ some '0' := by
            by_cases hc : c = '0' <;> simp [hc]
          constructor
          · rintro ⟨⟨-, hdigits⟩, -⟩
            exact ⟨hdigits, rfl⟩
          · rintro ⟨hdigits, -⟩
            exact ⟨⟨List.cons_ne_nil _ _, hdigits⟩, hzero⟩
      | cons d more => simp [isWhole]

theorem WholePart.ofNat (n : Nat) : WholePart (Digits.ofNat n) := by
  refine ⟨⟨Nat.toDigits_ne_nil, fun _ => Digits.isDigit_of_mem_ofNat⟩, ?_⟩
  rcases Nat.eq_zero_or_pos n with rfl | hpos
  · exact .inl rfl
  · exact .inr (Digits.head?_ofNat_ne_zero hpos)

theorem not_isDigit_of_mark (h : mark = 'e' ∨ mark = 'E') : mark.isDigit = false := by
  rcases h with rfl | rfl <;> rfl

/-- What stands behind the whole part does not begin with a digit. -/
theorem not_isDigit_head (hfraction : FractionPart fraction digits)
    (hpower : ExponentPart power exponent) :
    ∀ c ∈ (fraction ++ power).head?, c.isDigit = false := by
  have hexponent : ∀ c ∈ power.head?, c.isDigit = false := by
    cases hpower with
    | none => simp
    | plain hmark | plus hmark | minus hmark =>
        rintro c hc
        obtain rfl := Option.some.inj hc
        exact not_isDigit_of_mark hmark
  cases hfraction with
  | none => exact hexponent
  | some =>
      rintro c hc
      obtain rfl := Option.some.inj hc
      rfl

theorem areDigits_iff {cs : List Char} :
    AreDigits cs ↔ (cs.isEmpty || !cs.all Char.isDigit) = false := by
  simp [AreDigits]

theorem exponentPart_of_exponent? (hmark : mark = 'e' ∨ mark = 'E')
    (h : exponent? text = some exponent) : ExponentPart (mark :: text) exponent := by
  unfold exponent? at h
  split at h
  rename_i negative cs hsign
  split at h
  · simp at h
  · rename_i hnone
    have hdigits : AreDigits cs := areDigits_iff.mpr (Bool.not_eq_true _ ▸ hnone)
    obtain rfl := Option.some.inj h
    split at hsign <;> obtain ⟨rfl, rfl⟩ := Prod.mk.inj hsign
    · exact .minus hmark hdigits
    · exact .plus hmark hdigits
    · exact .plain hmark hdigits

/-- Without a sign the digits are not taken for one. -/
theorem exponent?_digits (h : AreDigits text) :
    exponent? text = some (Digits.toInt false text) := by
  obtain ⟨c, rest, rfl⟩ := List.exists_cons_of_ne_nil h.1
  have hc := h.2 c List.mem_cons_self
  have hsign : c ≠ '-' ∧ c ≠ '+' := by
    constructor <;> rintro rfl <;> exact absurd hc (by decide)
  unfold exponent?
  split
  rename_i hcons
  split at hcons
  · rename_i heq
    exact absurd (List.cons.inj heq).1 hsign.1
  · rename_i heq
    exact absurd (List.cons.inj heq).1 hsign.2
  · obtain ⟨rfl, rfl⟩ := Prod.mk.inj hcons
    rw [areDigits_iff.mp h]
    rfl

/-- The exponent is read behind its letter. -/
theorem exponent?_iff (hmark : mark = 'e' ∨ mark = 'E') :
    exponent? text = some exponent ↔ ExponentPart (mark :: text) exponent := by
  constructor
  · exact exponentPart_of_exponent? hmark
  · intro h
    cases h with
    | plus _ hdigits | minus _ hdigits => simp [exponent?, areDigits_iff.mp hdigits]
    | plain _ hdigits => exact exponent?_digits hdigits

theorem unsigned?_parts (negative : Bool) (hwhole : WholePart whole)
    (hfraction : FractionPart fraction digits) (hpower : ExponentPart power exponent) :
    unsigned? negative (whole ++ (fraction ++ power)) =
      if fraction ++ power = [] then integer? negative whole
      else (decimal? negative whole digits exponent).map .float := by
  obtain ⟨hall, hfirst⟩ := wholePart_iff.mp hwhole
  have hstop := not_isDigit_head hfraction hpower
  have htail : ∀ {cs : List Char}, AreDigits cs → cs.isEmpty = false :=
    fun h => List.isEmpty_eq_false_iff.mpr h.1
  rw [unsigned?, Text.takeWhile_stop hall hstop, Text.dropWhile_stop hall hstop, hfirst]
  have hletter : ∀ {mark : Char} {text : List Char}, power = mark :: text →
      (mark = 'e' ∨ mark = 'E') ∧ exponent? text = some exponent := by
    rintro mark text rfl
    have hmark : mark = 'e' ∨ mark = 'E' := by cases hpower <;> assumption
    exact ⟨hmark, (exponent?_iff hmark).mpr hpower⟩
  cases hfraction with
  | none =>
      cases hcase : power with
      | nil => rfl
      | cons mark text =>
          obtain ⟨hmark, hexponent⟩ := hletter hcase
          rcases hmark with rfl | rfl <;> simp [hexponent]
  | some hdigits =>
      cases hcase : power with
      | nil =>
          have hzero : exponent = 0 := by
            subst hcase
            cases hpower
            rfl
          simp [List.takeWhile_eq_self_iff.mpr hdigits.2, List.dropWhile_eq_nil_iff.mpr hdigits.2,
            htail hdigits, hzero]
      | cons mark text =>
          obtain ⟨hmark, hexponent⟩ := hletter hcase
          have hends : ∀ c ∈ (mark :: text).head?, c.isDigit = false := by
            rintro c hc
            obtain rfl := Option.some.inj hc
            exact not_isDigit_of_mark hmark
          simp [Text.takeWhile_stop hdigits.2 hends, Text.dropWhile_stop hdigits.2 hends,
            htail hdigits, hmark, hexponent]

theorem exists_exponentPart {float? : Int → Option Scalar}
    (h : (if mark = 'e' ∨ mark = 'E' then (exponent? text).bind float? else none) = some s) :
    ∃ exponent, ExponentPart (mark :: text) exponent := by
  split at h
  · rename_i hmark
    obtain ⟨exponent, hexponent, -⟩ := Option.bind_eq_some_iff.mp h
    exact ⟨exponent, (exponent?_iff hmark).mp hexponent⟩
  · simp at h

/-- If anything is read, the text has these parts. -/
theorem exists_parts (h : unsigned? negative text = some s) :
    ∃ whole fraction digits power exponent, text = whole ++ (fraction ++ power) ∧
      WholePart whole ∧ FractionPart fraction digits ∧ ExponentPart power exponent := by
  have hsplit := (List.takeWhile_append_dropWhile (p := Char.isDigit) (l := text)).symm
  unfold unsigned? at h
  dsimp only at h
  split at h
  · simp at h
  · rename_i hfirst
    have hwhole : WholePart (text.takeWhile Char.isDigit) :=
      wholePart_iff.mpr ⟨fun _ => List.mem_takeWhile_imp, by simpa using hfirst⟩
    split at h
    · rename_i hnone
      rw [hnone] at hsplit
      exact ⟨_, [], [], [], 0, hsplit, hwhole, .none, .none⟩
    · rename_i more hdot
      rw [hdot] at hsplit
      have hmore := (List.takeWhile_append_dropWhile (p := Char.isDigit) (l := more)).symm
      split at h
      · simp at h
      · rename_i hsome
        have hdigits : AreDigits (more.takeWhile Char.isDigit) :=
          ⟨fun hnil => hsome (by rw [hnil]; rfl), fun _ => List.mem_takeWhile_imp⟩
        split at h
        · rename_i hlast
          rw [hlast, List.append_nil] at hmore
          rw [hmore] at hsplit
          exact ⟨_, _, _, [], 0, by rwa [List.append_nil], hwhole, .some hdigits, .none⟩
        · rename_i mark later hlast
          rw [hlast] at hmore
          obtain ⟨exponent, hexponent⟩ := exists_exponentPart h
          exact ⟨_, _, _, _, exponent, hsplit.trans (congrArg (_ ++ '.' :: ·) hmore), hwhole,
            .some hdigits, hexponent⟩
    · rename_i mark more hdot hmark
      rw [hmark] at hsplit
      obtain ⟨exponent, hexponent⟩ := exists_exponentPart h
      exact ⟨_, [], [], _, exponent, hsplit, hwhole, .none, hexponent⟩

/-! ### Whole numbers

A sign is read first.  No digits begin with a minus, so a number without one is not taken for a
negative number.
-/

theorem number?_signed (negative : Bool) (hcs : ∀ c ∈ cs.head?, c.isDigit = true) :
    number? (minus negative ++ cs) = unsigned? negative cs := by
  cases negative with
  | true => rfl
  | false =>
      show number? cs = _
      unfold number?
      split
      · exact absurd (hcs '-' rfl) (by decide)
      · rfl

theorem isDigit_head (h : WholePart whole) (rest : List Char) :
    ∀ c ∈ (whole ++ rest).head?, c.isDigit = true := by
  obtain ⟨c, more, rfl⟩ := List.exists_cons_of_ne_nil h.1.1
  intro d hd
  obtain rfl := Option.some.inj hd
  exact h.1.2 c List.mem_cons_self

/-- **What a number is read as**, given its sign and its parts. -/
theorem number?_parts (negative : Bool) (hwhole : WholePart whole)
    (hfraction : FractionPart fraction digits) (hpower : ExponentPart power exponent) :
    number? (minus negative ++ (whole ++ (fraction ++ power))) =
      if fraction ++ power = [] ∧ FitsInteger negative (Digits.toNat whole) then
        some (.integer (Digits.toInt negative whole))
      else (decimal? negative whole digits exponent).map .float := by
  rw [number?_signed _ (isDigit_head hwhole _), unsigned?_parts negative hwhole hfraction hpower]
  by_cases hnone : fraction ++ power = []
  · obtain ⟨rfl, rfl⟩ := List.append_eq_nil_iff.mp hnone
    cases hfraction
    cases hpower
    simp only [List.append_nil, if_true, true_and, integer?_eq]
  · rw [if_neg hnone, if_neg fun h => hnone h.1]

/-- **The numbers that are read are those of the grammar.** -/
theorem number?_iff : number? cs = some s ↔ Numeral cs s := by
  constructor
  · intro h
    obtain ⟨negative, body, rfl, hbody⟩ :
        ∃ negative body, cs = minus negative ++ body ∧ unsigned? negative body = some s := by
      unfold number? at h
      split at h
      · exact ⟨true, _, rfl, h⟩
      · exact ⟨false, _, rfl, h⟩
    obtain ⟨whole, fraction, digits, power, exponent, rfl, hwhole, hfraction, hpower⟩ :=
      exists_parts hbody
    rw [← number?_signed _ (isDigit_head hwhole _), number?_parts _ hwhole hfraction hpower]
      at hbody
    split at hbody
    · rename_i hinteger
      obtain rfl := Option.some.inj hbody
      rw [hinteger.1, List.append_nil]
      exact .integer hwhole hinteger.2
    · rename_i hfloat
      obtain ⟨x, hx, rfl⟩ := Option.map_eq_some_iff.mp hbody
      rw [← List.append_assoc, ← List.append_assoc]
      exact .float hwhole hfraction hpower (fun hnone hfits => hfloat ⟨hnone, hfits⟩) hx
  · intro h
    cases h with
    | @integer negative whole hwhole hfits =>
        have hparts := number?_parts negative hwhole .none .none
        rw [List.append_nil, List.append_nil] at hparts
        rw [hparts, if_pos ⟨rfl, hfits⟩]
    | float hwhole hfraction hpower hfloat hvalue =>
        rw [List.append_assoc, List.append_assoc, number?_parts _ hwhole hfraction hpower,
          if_neg fun h => hfloat h.1 h.2, hvalue]
        rfl

/-- What a JSON value can hold: integers of 64 bits, with or without sign, and finite floats. -/
def Scalar.Fits : Scalar → Prop
  | .integer n => -0x8000000000000000 ≤ n ∧ n < 0x10000000000000000
  | .float x => x.isFinite = true
  | _ => True

theorem Numeral.fits (h : Numeral cs s) : s.Fits := by
  cases h with
  | @integer negative whole hwhole hfits =>
      show _ ≤ Digits.toInt negative whole ∧ Digits.toInt negative whole < _
      cases negative with
      | false =>
          have hless : Digits.toNat whole < 0x10000000000000000 := hfits
          rw [Digits.toInt, if_neg (by decide)]
          omega
      | true =>
          have hmost : 0 < Digits.toNat whole ∧ Digits.toNat whole ≤ 0x8000000000000000 := hfits
          rw [Digits.toInt, if_pos rfl]
          omega
  | float _ _ _ _ hvalue => exact isFinite_of_decimal? hvalue

/-! ### Runs

A number is read as a run of characters.  It begins with a minus or a digit, so it is none of the
three words.
-/

theorem isRunChar_of_isDigit {c : Char} (h : c.isDigit = true) : isRunChar c = true := by
  simp [isRunChar, Char.isAlphanum, h]

theorem isRunChar_of_mem_minus {c : Char} (h : c ∈ minus negative) : isRunChar c = true := by
  unfold minus at h
  split at h
  · obtain rfl := List.mem_singleton.mp h
    rfl
  · simp at h

theorem ofRun?_signed (negative : Bool) (hcs : ∀ c ∈ cs.head?, c.isDigit = true) (hne : cs ≠ []) :
    ofRun? (minus negative ++ cs) = number? (minus negative ++ cs) := by
  have hword : ∀ c rest, c.isDigit = false → c ≠ '-' → minus negative ++ cs ≠ c :: rest := by
    rintro c rest hdigit hsign heq
    cases negative with
    | true => exact hsign (List.cons.inj heq).1.symm
    | false =>
        obtain rfl : cs = c :: rest := heq
        exact absurd (hcs c rfl) (by simp [hdigit])
  rw [ofRun?, if_neg (hword _ _ rfl (by decide)), if_neg (hword _ _ rfl (by decide)),
    if_neg (hword _ _ rfl (by decide))]

theorem ofRun?_parts (negative : Bool) (hwhole : WholePart whole)
    (hfraction : FractionPart fraction digits) (hpower : ExponentPart power exponent) :
    ofRun? (minus negative ++ (whole ++ (fraction ++ power))) =
      if fraction ++ power = [] ∧ FitsInteger negative (Digits.toNat whole) then
        some (.integer (Digits.toInt negative whole))
      else (decimal? negative whole digits exponent).map .float := by
  have hne : whole ++ (fraction ++ power) ≠ [] :=
    List.append_ne_nil_of_left_ne_nil hwhole.1.1 _
  rw [ofRun?_signed _ (isDigit_head hwhole _) hne, number?_parts _ hwhole hfraction hpower]

/-- The parts of a number, whatever it is held as. -/
theorem Numeral.exists_parts (h : Numeral cs s) :
    ∃ negative whole fraction digits power exponent,
      cs = minus negative ++ (whole ++ (fraction ++ power)) ∧ WholePart whole ∧
        FractionPart fraction digits ∧ ExponentPart power exponent := by
  cases h with
  | @integer negative whole hwhole hfits =>
      exact ⟨negative, whole, [], [], [], 0, by simp, hwhole, .none, .none⟩
  | @float negative whole fraction digits power exponent x hwhole hfraction hpower =>
      exact ⟨negative, whole, fraction, digits, power, exponent, by simp, hwhole, hfraction,
        hpower⟩

theorem Numeral.ofRun? (h : Numeral cs s) : ofRun? cs = some s := by
  have hnumber := number?_iff.mpr h
  obtain ⟨negative, whole, fraction, digits, power, exponent, rfl, hwhole, -, -⟩ := h.exists_parts
  have hne : whole ++ (fraction ++ power) ≠ [] :=
    List.append_ne_nil_of_left_ne_nil hwhole.1.1 _
  rw [ofRun?_signed _ (isDigit_head hwhole _) hne, hnumber]

theorem Numeral.ne_nil (h : Numeral cs s) : cs ≠ [] := by
  obtain ⟨negative, whole, fraction, digits, power, exponent, rfl, hwhole, -, -⟩ := h.exists_parts
  exact List.append_ne_nil_of_right_ne_nil _ (List.append_ne_nil_of_left_ne_nil hwhole.1.1 _)

theorem Numeral.isRunChar (h : Numeral cs s) : ∀ c ∈ cs, isRunChar c = true := by
  obtain ⟨negative, whole, fraction, digits, power, exponent, rfl, hwhole, hfraction, hpower⟩ :=
    h.exists_parts
  have hmark : ∀ {mark : Char}, mark = 'e' ∨ mark = 'E' → Json.isRunChar mark = true := by
    rintro mark (rfl | rfl) <;> rfl
  have hall : ∀ {cs : List Char}, AreDigits cs → ∀ c ∈ cs, Json.isRunChar c = true :=
    fun h c hc => isRunChar_of_isDigit (h.2 c hc)
  intro c hc
  rcases List.mem_append.mp hc with hsign | hc
  · exact isRunChar_of_mem_minus hsign
  rcases List.mem_append.mp hc with hfront | hc
  · exact hall hwhole.1 c hfront
  rcases List.mem_append.mp hc with hfront | hc
  · cases hfraction with
    | none => simp at hfront
    | some hdigits =>
        rcases List.mem_cons.mp hfront with rfl | hfront
        · rfl
        · exact hall hdigits c hfront
  · cases hpower with
    | none => simp at hc
    | plain hletter hdigits =>
        rcases List.mem_cons.mp hc with rfl | hc
        · exact hmark hletter
        · exact hall hdigits c hc
    | plus hletter hdigits | minus hletter hdigits =>
        rcases List.mem_cons.mp hc with rfl | hc
        · exact hmark hletter
        · rcases List.mem_cons.mp hc with rfl | hc
          · rfl
          · exact hall hdigits c hc

/-! ### Integers that are written

An integer is a sign and digits without a needless zero.  Which numbers these are has
been said above; here is only that they are written so.
-/

theorem ofInt_eq (n : Int) : Digits.ofInt n = minus (decide (n < 0)) ++ Digits.ofNat n.natAbs := by
  unfold Digits.ofInt minus
  by_cases h : n < 0 <;> simp [h]

/-- The text of any integer is one run. -/
theorem isRunChar_of_mem_ofInt {n : Int} {c : Char} (h : c ∈ Digits.ofInt n) :
    isRunChar c = true := by
  rw [ofInt_eq] at h
  rcases List.mem_append.mp h with hsign | hdigit
  · exact isRunChar_of_mem_minus hsign
  · exact isRunChar_of_isDigit (Digits.isDigit_of_mem_ofNat hdigit)

/-- **The text of an integer that fits is a number of the grammar.** -/
theorem Numeral.ofInt {n : Int} (h : (Scalar.integer n).Fits) :
    Numeral (Digits.ofInt n) (.integer n) := by
  obtain ⟨hlow, hhigh⟩ : -0x8000000000000000 ≤ n ∧ n < 0x10000000000000000 := h
  have hnumeral : ∀ {negative : Bool}, negative = decide (n < 0) →
      FitsInteger negative n.natAbs → Digits.toInt negative (Digits.ofNat n.natAbs) = n →
        Numeral (Digits.ofInt n) (.integer n) := by
    rintro negative rfl hfits hvalue
    rw [← Digits.toNat_ofNat n.natAbs] at hfits
    have hinteger := Numeral.integer (WholePart.ofNat n.natAbs) hfits
    rwa [hvalue, ← ofInt_eq] at hinteger
  by_cases hn : n < 0
  · refine hnumeral (decide_eq_true hn).symm (show _ ∧ _ by omega) ?_
    rw [Digits.toInt, if_pos rfl, Digits.toNat_ofNat]
    omega
  · refine hnumeral (decide_eq_false hn).symm (show _ < _ by omega) ?_
    rw [Digits.toInt, if_neg (by decide), Digits.toNat_ofNat]
    omega

end Json

end FieldQuery

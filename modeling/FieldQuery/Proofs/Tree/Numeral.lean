/-
The trees of numbers.

A number is a sign or nothing, digits, and perhaps a dot with more digits.  With a dot
it is a float as soon as there is a digit at all; without one it is an integer if there
is a digit and the integer has a place in 64 bits, whatever zeros stand in front.
`Valueless` lists the numbers that are left.

The scanner takes more for numbers than have a value: a sign alone is one, and so is a
dot behind a sign.  So both directions are shown, that what is listed has no value and
that everything else has one, and the list is exact for whatever the scanner cuts off.
-/
import FieldQuery.Proofs.Scan.Longest
import FieldQuery.Query.Literal
import Mathlib

namespace FieldQuery

/-- The integer has a place in 64 bits with sign. -/
def IsInt64 (n : Int) : Prop := -2 ^ 63 ≤ n ∧ n ≤ 2 ^ 63 - 1

theorem exists_of_isInt64 {n : Int} (h : IsInt64 n) : ∃ i, int64? n = some i := by
  obtain ⟨hlow, hhigh⟩ := h
  exact ⟨Int64.ofInt n, if_pos (by omega)⟩

theorem int64?_of_not {n : Int} (h : ¬IsInt64 n) : int64? n = none := by
  unfold IsInt64 at h
  exact if_neg (by omega)

namespace Tree

variable {mark digits fraction : List Char}

/-! ### Sign, digits and dot

A number is split where its digits end, and its sign is cut off first.  No digit is a
sign or a dot, so there is one way to split it.
-/

/-- A sign is cut off, if there is one, from what does not begin with one. -/
theorem sign_append (hmark : Text.IsSign mark) {body : List Char}
    (hbody : ∀ c ∈ body.head?, c ≠ '-' ∧ c ≠ '+') :
    sign (mark ++ body) = (mark == ['-'], body) := by
  rcases hmark with rfl | rfl | rfl
  · rw [List.nil_append]
    unfold sign
    split
    · exact absurd rfl (hbody _ rfl).1
    · exact absurd rfl (hbody _ rfl).2
    · rfl
  · rfl
  · rfl

theorem ne_of_isDigit {c : Char} (h : c.isDigit = true) : c ≠ '.' ∧ c ≠ '-' ∧ c ≠ '+' := by
  refine ⟨?_, ?_, ?_⟩ <;> rintro rfl <;> exact absurd h (by decide)

theorem integer?_digits (negative : Bool) (hdigits : ∀ c ∈ digits, c.isDigit = true) :
    integer? negative digits =
      if digits = [] then none else (int64? (Digits.toInt negative digits)).map .integer := by
  rw [integer?, List.all_eq_true.mpr hdigits]
  cases digits <;> rfl

theorem number?_whole (hmark : Text.IsSign mark) (hdigits : ∀ c ∈ digits, c.isDigit = true) :
    number? (mark ++ digits) = integer? (mark == ['-']) digits := by
  have hhead : ∀ c ∈ digits.head?, c ≠ '-' ∧ c ≠ '+' :=
    fun c hc => (ne_of_isDigit (hdigits c (List.mem_of_head? hc))).2
  have hdot : digits.dropWhile (· != '.') = [] :=
    List.dropWhile_eq_nil_iff.mpr fun c hc => bne_iff_ne.mpr (ne_of_isDigit (hdigits c hc)).1
  rw [number?, sign_append hmark hhead]
  dsimp only
  rw [hdot]

theorem number?_dotted (hmark : Text.IsSign mark) (hdigits : ∀ c ∈ digits, c.isDigit = true) :
    number? (mark ++ digits ++ '.' :: fraction) = float? (mark == ['-']) digits fraction := by
  have hhead : ∀ c ∈ (digits ++ '.' :: fraction).head?, c ≠ '-' ∧ c ≠ '+' := by
    refine Text.forall_head_append (fun c hc => ?_) (by simp)
    exact (ne_of_isDigit (hdigits c (List.mem_of_head? hc))).2
  have hdot : '.' ∉ digits := fun hmem => (ne_of_isDigit (hdigits _ hmem)).1 rfl
  rw [List.append_assoc, number?, sign_append hmark hhead]
  dsimp only
  rw [Text.dropWhile_mark hdot, Text.takeWhile_mark hdot]

theorem exists_float? (negative : Bool) (hdigits : ∀ c ∈ digits, c.isDigit = true)
    (hfraction : ∀ c ∈ fraction, c.isDigit = true) (hne : digits ++ fraction ≠ []) :
    ∃ x, float? negative digits fraction = some (.float x) := by
  have hall : (digits ++ fraction).all Char.isDigit = true :=
    List.all_eq_true.mpr (List.forall_mem_append.mpr ⟨hdigits, hfraction⟩)
  refine ⟨_, if_neg ?_⟩
  rw [hall, List.isEmpty_eq_false_iff.mpr hne]
  decide

/-! ### Integers -/

/-- An integer within 64 bits is read, whatever zeros its digits begin with. -/
theorem exists_number?_whole (hmark : Text.IsSign mark) (hdigits : ∀ c ∈ digits, c.isDigit = true)
    (hne : digits ≠ []) (hrange : IsInt64 (Digits.toInt (mark == ['-']) digits)) :
    ∃ i : Int64, number? (mark ++ digits) = some (.integer i) ∧
      i.toInt = Digits.toInt (mark == ['-']) digits := by
  obtain ⟨i, hi⟩ := exists_of_isInt64 hrange
  refine ⟨i, ?_, toInt_of_int64? hi⟩
  rw [number?_whole hmark hdigits, integer?_digits _ hdigits, if_neg hne, hi]
  rfl

/-- The decimal text of an integer is read as that integer. -/
theorem number?_ofInt (n : Int64) : number? (Digits.ofInt n.toInt) = some (.integer n) := by
  have hdigits : ∀ c ∈ Digits.ofNat n.toInt.natAbs, c.isDigit = true :=
    fun _ => Digits.isDigit_of_mem_ofNat
  have hread : ∀ {mark : List Char}, Text.IsSign mark →
      Digits.toInt (mark == ['-']) (Digits.ofNat n.toInt.natAbs) = n.toInt →
        number? (mark ++ Digits.ofNat n.toInt.natAbs) = some (.integer n) := by
    intro mark hmark hvalue
    have hne : Digits.ofNat n.toInt.natAbs ≠ [] := Nat.toDigits_ne_nil
    rw [number?_whole hmark hdigits, integer?_digits _ hdigits, if_neg hne, hvalue, int64?_toInt]
    rfl
  by_cases hnegative : n.toInt < 0
  · rw [Digits.ofInt, if_pos hnegative]
    refine hread (.inr (.inr rfl)) ?_
    rw [Digits.toInt, if_pos (by decide), Digits.toNat_ofNat]
    omega
  · rw [Digits.ofInt, if_neg hnegative]
    refine hread (.inl rfl) ?_
    rw [Digits.toInt, if_neg (by decide), Digits.toNat_ofNat]
    omega

/-! ### Numbers without a value

Going through the forms of a number finds the ones that fail.
-/

/-- The numbers that stand for nothing: those without a digit, and integers outside 64 bits. -/
inductive Valueless : List Char → Prop
  | sign {mark : List Char} (hmark : Text.IsSign mark) : Valueless mark
  | signDot {mark : List Char} (hmark : Text.IsSign mark) : Valueless (mark ++ ['.'])
  | outside {mark digits : List Char} (hmark : Text.IsSign mark)
      (hdigits : ∀ c ∈ digits, c.isDigit = true)
      (hrange : ¬IsInt64 (Digits.toInt (mark == ['-']) digits)) : Valueless (mark ++ digits)

theorem Valueless.number?_eq_none {cs : List Char} (h : Valueless cs) : number? cs = none := by
  cases h with
  | sign hmark =>
      have hwhole := @number?_whole cs [] hmark (by simp)
      rwa [List.append_nil] at hwhole
  | @signDot mark hmark =>
      have hdotted := @number?_dotted mark [] [] hmark (by simp)
      rwa [List.append_nil] at hdotted
  | outside hmark hdigits hrange =>
      rw [number?_whole hmark hdigits, integer?_digits _ hdigits, int64?_of_not hrange]
      split <;> rfl

/-- No other number is without a value. -/
theorem valueless_of_number? {run after : List Char} (h : Text.NumberRun after run)
    (hnone : number? run = none) : Valueless run := by
  cases h with
  | @whole mark digits hmark _ hdigits _ =>
      rw [number?_whole hmark hdigits, integer?_digits _ hdigits] at hnone
      by_cases hempty : digits = []
      · rw [hempty, List.append_nil]
        exact .sign hmark
      · rw [if_neg hempty] at hnone
        refine .outside hmark hdigits fun hrange => ?_
        obtain ⟨i, hi⟩ := exists_of_isInt64 hrange
        simp [hi] at hnone
  | @dotted mark digits fraction hmark _ hdigits hfraction _ =>
      rw [number?_dotted hmark hdigits] at hnone
      by_cases hempty : digits ++ fraction = []
      · obtain ⟨rfl, rfl⟩ := List.append_eq_nil_iff.mp hempty
        rw [List.append_nil]
        exact .signDot hmark
      · obtain ⟨x, hx⟩ := exists_float? (mark == ['-']) hdigits hfraction hempty
        simp [hx] at hnone

end Tree

end FieldQuery

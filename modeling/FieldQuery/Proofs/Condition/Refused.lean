/-
Where a condition ends.

A condition extends to the end of the text or to the first phrase that is refused, and
what is left of the phrases is an end of them.  The text cannot be cut at a broken
phrase and nowhere else, `broken_of_step`: of all the errors with which a phrase is
refused this is the only one that tells which phrase it was, and that the phrase is
gone.

What is left matters to the caller, who goes on with it.  A phrase may be refused and
kept, and then it is read again outside the condition; that an error of the scanner is
dropped with its phrase is why it is never met a second time.
-/
import FieldQuery.Query.Condition
import Mathlib.Data.List.Infix

namespace FieldQuery

namespace Condition

/-! ### Errors of scanning

The reader makes errors of its own and passes one kind on.  Going through the functions
that make them shows that none makes that kind.
-/

/-- The error with which a phrase is refused. -/
def Refusal.error : Refusal → ParseError
  | .keeping error | .dropping error => error

theorem Progress.place_ne_scan (p : Progress) (operand : Tree) (first : Lexeme) (e : ScanError) :
    p.place operand first ≠ .error (.scan e) := by
  unfold Progress.place
  split <;> simp

theorem Progress.result_ne_scan (p : Progress) (e : ScanError) :
    p.result ≠ .error (.scan e) := by
  cases p <;> simp [Progress.result]

namespace State

variable {s : State} {refusal : Refusal} {e : ScanError}

theorem error_place {operand : Tree} {first : Lexeme}
    (h : s.place operand first = .error refusal) : refusal.error ≠ .scan e := by
  unfold State.place at h
  split at h
  · simp at h
  · rename_i error herror
    obtain rfl := Except.error.inj h
    rintro rfl
    exact s.progress.place_ne_scan operand first e herror

theorem error_closeGroup {l : Lexeme} (h : s.closeGroup l = .error refusal) :
    refusal.error ≠ .scan e := by
  unfold closeGroup at h
  split at h
  · obtain rfl := Except.error.inj h
    simp [Refusal.error]
  · split at h
    · rename_i error herror
      obtain rfl := Except.error.inj h
      rintro rfl
      exact s.progress.result_ne_scan e herror
    · simp at h
    · exact error_place h

theorem error_stepLexeme {l : Lexeme} (h : s.stepLexeme l = .error refusal) :
    refusal.error ≠ .scan e := by
  grind [stepLexeme, stepOperator, openGroup, openList, stepLiteral, error_place,
    error_closeGroup, Refusal.error]

theorem error_stepList {literals : List Tree} {l : Lexeme}
    (h : s.stepList literals l = .error refusal) : refusal.error ≠ .scan e := by
  grind [stepList, error_place, Refusal.error]

/-- Only a broken phrase is refused because the text cannot be cut, and it is dropped. -/
theorem broken_of_step {p : Phrase} (h : s.step p = .error refusal)
    (he : refusal.error = .scan e) :
    refusal = .dropping (.scan e) ∧ ∃ fields, p = .broken fields e := by
  unfold State.step at h
  split at h
  · exact absurd he (error_place h)
  · exact absurd he (error_stepLexeme h)
  · obtain rfl := Except.error.inj h
    simp [Refusal.error] at he
  · obtain rfl := Except.error.inj h
    simp [Refusal.error] at he
  · exact absurd he (error_stepList h)
  · rename_i fields error _
    obtain rfl := Except.error.inj h
    obtain rfl := ParseError.scan.inj he
    exact ⟨rfl, fields, rfl⟩

theorem result_ne_scan (s : State) (size : Nat) (e : ScanError) :
    s.result size ≠ .error (.scan e) := by
  unfold State.result
  split
  · simp
  · split
    · exact s.progress.result_ne_scan e
    · simp

end State

/-! ### What is left behind a condition

The reading goes down the list of phrases, and wherever it ends the rest is a suffix.
-/

section

variable (size : Nat) (s : State) (phrases : List Phrase)

theorem pending_suffix : (run size s phrases).pending <:+ phrases := by
  induction phrases generalizing s with
  | nil => exact List.suffix_refl _
  | cons p rest ih =>
      rw [run]
      split
      · exact (ih _).trans (List.suffix_cons p rest)
      · exact List.suffix_refl _
      · exact List.suffix_cons p rest

variable {size s phrases}

/-- A condition without an error extends to the end. -/
theorem pending_of_ok {tree? : Option Tree} (h : (run size s phrases).tree? = .ok tree?) :
    (run size s phrases).pending = [] := by
  induction phrases generalizing s with
  | nil => rfl
  | cons p rest ih =>
      rw [run] at h ⊢
      split at h
      · exact ih h
      · simp at h
      · simp at h

/-- Where the text cannot be cut the broken phrase has been the last one read. -/
theorem broken_of_scan {e : ScanError} (h : (run size s phrases).tree? = .error (.scan e)) :
    ∃ fields, .broken fields e :: (run size s phrases).pending <:+ phrases := by
  induction phrases generalizing s with
  | nil => exact absurd h (s.result_ne_scan size e)
  | cons p rest ih =>
      rw [run] at h ⊢
      cases hstep : s.step p with
      | ok s' =>
          simp only [hstep] at h ⊢
          obtain ⟨fields, hsuffix⟩ := ih h
          exact ⟨fields, hsuffix.trans (List.suffix_cons p rest)⟩
      | error refusal =>
          have herror : refusal.error = .scan e := by
            cases refusal <;> simpa [hstep, Refusal.error] using h
          obtain ⟨rfl, fields, rfl⟩ := State.broken_of_step hstep herror
          exact ⟨fields, List.suffix_refl _⟩

end

end Condition

end FieldQuery

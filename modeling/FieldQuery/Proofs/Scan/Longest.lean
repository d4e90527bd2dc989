/-
Lexemes are as long as they can be.

A scanner that stops early cuts one word into two, and one that is too eager takes a
word for part of a number; neither is visible in a list of tokens.  So the statement
here is about the text: a lexeme stands in it as a text of its kind that could not have
gone on, `Longest`, and scanning ends where it has to, with nothing left or in front of
a fault.  Neither `Longest` nor `Fault` says how a text is scanned.

Every lexeme is as long as it can be because one step of the scanner answers with a
longest lexeme or with the fault, and the whole text follows by induction.  That the
step has no third answer is what makes the last item of a text decide the matter in both
directions: `Verdict` says that it is the end exactly where only blanks are left, and an
error exactly where its fault stands.

The one subtlety is where the faulty rest begins.  Blanks in front of it are skipped, so
a fault is read at the first character that is no blank, and its position counts the
blanks in.
-/
import FieldQuery.Proofs.Scan.Cut

namespace FieldQuery

namespace Lexeme

open Text

/-- The offset behind the last of some lexemes, which begin at this offset or behind it. -/
def stopFrom (pos : Nat) : List Lexeme → Nat
  | [] => pos
  | l :: rest => stopFrom (l.pos + byteLength l.text.toList) rest

/-- What the last item says of the text behind the lexemes, which begins at this offset: there
are only blanks, or behind the blanks stands a fault. -/
structure Verdict (pos : Nat) (behind : List Char) (last : Except ScanError Lexeme) : Prop where
  terminal : last = .ok (atEnd (pos + byteLength behind)) ∨ ∃ e, last = .error e
  atEnd_iff : last = .ok (atEnd (pos + byteLength behind)) ↔ behind.dropWhile isBlank = []
  error_iff : ∀ e, last = .error e ↔
    Fault (pos + byteLength (behind.takeWhile isBlank)) (behind.dropWhile isBlank) e

theorem exists_verdict_scanFrom (pos : Nat) (cs : List Char) :
    ∃ ls last front behind, scanFrom pos cs = ls.map .ok ++ [last] ∧
      (∀ l ∈ ls, l.token ≠ .eof) ∧ cs = front ++ behind ∧
        stopFrom pos ls = pos + byteLength front ∧ Verdict (stopFrom pos ls) behind last := by
  fun_induction scanFrom pos cs with
  | case1 pos cs hcut =>
      refine ⟨[], _, [], cs, rfl, by simp, rfl, rfl, .inl rfl, ⟨fun _ => hcut, fun _ => rfl⟩, ?_⟩
      intro e
      rw [hcut]
      constructor
      · intro h
        cases h
      · exact fun h => absurd rfl h.ne_nil
  | case2 pos cs first rest hcut start e hmunch =>
      refine ⟨[], _, [], cs, rfl, by simp, rfl, rfl, .inr ⟨e, rfl⟩, ?_, ?_⟩
      · simp [hcut]
      · intro e'
        rw [hcut]
        constructor
        · intro h
          obtain rfl := Except.error.inj h
          exact fault_of_munch hmunch
        · intro h
          rw [Except.error.inj (hmunch.symm.trans (munch_of_fault h))]
  | case3 pos cs first rest hcut start token more hmunch ih =>
      obtain ⟨tail, rfl, hlongest⟩ := longest_of_munch hmunch
      rw [List.drop_left] at ih ⊢
      obtain ⟨ls, last, front, behind, hscan, heof, rfl, hstop, hverdict⟩ := ih
      have hcs : cs = cs.takeWhile isBlank ++ (first :: more ++ (front ++ behind)) := by
        rw [List.cons_append, ← hcut, List.takeWhile_append_dropWhile]
      have hlexeme : stopFrom pos (⟨token, start, String.ofList (first :: more)⟩ :: ls) =
          stopFrom (start + byteLength (first :: more)) ls := by
        rw [stopFrom, String.toList_ofList]
      refine ⟨⟨token, start, String.ofList (first :: more)⟩ :: ls, last,
        cs.takeWhile isBlank ++ (first :: more ++ front), behind, ?_, ?_, ?_, ?_, ?_⟩
      · rw [hscan]
        rfl
      · exact List.forall_mem_cons.mpr ⟨hlongest.ne_eof, heof⟩
      · rw [List.append_assoc, List.append_assoc]
        exact hcs
      · rw [hlexeme, hstop, byteLength_append, byteLength_append]
        omega
      · rw [hlexeme]
        exact hverdict

/--
**Every lexeme is as long as it can be, and scanning stops at a fault and nowhere else.**  The
text of a lexeme is one of its kind, and what stands behind it could not go on with it.  Behind
the last lexeme stand blanks; what follows them is nothing, and then the last item is the end, or
it is at fault, and then the last item is the error that the fault is named by.
-/
theorem scan_longest (text : String) :
    (∀ l, .ok l ∈ scan text → l.token ≠ .eof → ∃ before after,
      text.toList = before ++ (l.text.toList ++ after) ∧ byteLength before = l.pos ∧
        Longest after l.text.toList l.token) ∧
    ∃ ls last front behind, scan text = ls.map .ok ++ [last] ∧ (∀ l ∈ ls, l.token ≠ .eof) ∧
      text.toList = front ++ behind ∧ stopFrom 0 ls = byteLength front ∧
        Verdict (stopFrom 0 ls) behind last := by
  constructor
  · intro l hl htoken
    obtain ⟨before, after, htext, hpos, hlongest⟩ := longest_of_mem_scanFrom 0 _ l hl htoken
    exact ⟨before, after, htext, by omega, hlongest⟩
  · obtain ⟨ls, last, front, behind, hscan, heof, htext, hstop, hverdict⟩ :=
      exists_verdict_scanFrom 0 text.toList
    exact ⟨ls, last, front, behind, hscan, heof, htext, by omega, hverdict⟩

end Lexeme

end FieldQuery

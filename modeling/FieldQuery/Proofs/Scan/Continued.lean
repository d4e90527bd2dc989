/-
Text that goes on behind its end.

A lexeme is cut off where the next character cannot belong to it, and the end of a text
cuts off like a character that belongs to nothing.  So a text that is cut without error
is cut in the same way in front of anything that no word, number or relation can take
in: `Longest.append` says it of one lexeme, `reads_of_scan` of a whole text, wherever it
then stands.

Only the last lexeme of the text sees what has been put behind it.  The others have the
next one behind them as before, so the induction never needs to know which lexeme is the
last.
-/
import FieldQuery.Proofs.Scan.Lossless
import FieldQuery.Proofs.Scan.Written

namespace FieldQuery

namespace Lexeme

/-- A text that is cut without error is read in front of anything that does not go on with it. -/
theorem reads_of_scanFrom {tail : List Char} (htail : Text.Stops tail) (pos : Nat)
    (cs : List Char) : ∀ (ls : List Lexeme) (last : Lexeme),
      scanFrom pos cs = ls.map .ok ++ [.ok last] → last.token = .eof →
        Reads cs tail (ls.map word) := by
  fun_induction scanFrom pos cs with
  | case1 pos cs hcut =>
      intro ls last h _
      have hnil : ls = [] := by
        have hlength := congrArg List.length h
        simpa using hlength
      subst hnil
      have hblank : ∀ c ∈ cs, Text.isBlank c = true := by
        simpa [List.dropWhile_eq_nil_iff] using hcut
      exact reads_blank hblank tail
  | case2 pos cs first rest hcut start e hmunch =>
      intro ls last h _
      cases ls <;> simp at h
  | case3 pos cs first rest hcut start token more hmunch ih =>
      intro ls last h hlast
      cases ls with
      | nil =>
          obtain rfl := (Except.ok.inj (List.cons.inj h).1)
          obtain ⟨after, -, hlongest⟩ := longest_of_munch hmunch
          exact absurd hlast hlongest.ne_eof
      | cons l ls =>
          obtain ⟨hl, hrest⟩ := List.cons.inj h
          obtain rfl := Except.ok.inj hl
          obtain ⟨behind, rfl, hlongest⟩ := longest_of_munch hmunch
          rw [List.drop_left] at ih hrest
          have hcs : cs = cs.takeWhile Text.isBlank ++ ((first :: more) ++ behind) := by
            rw [List.cons_append, ← hcut, List.takeWhile_append_dropWhile]
          have hgap : ∀ rest, Reads (cs.takeWhile Text.isBlank) rest [] :=
            reads_blank fun c hc => List.mem_takeWhile_imp hc
          have hlexeme := reads_lexeme (hlongest.append htail)
          rw [hcs]
          exact (hgap _).append (hlexeme.append (ih ls last hrest hlast))

/-- A text that is cut without error is read into the same words in front of anything that does
not go on with it. -/
theorem reads_of_scan {text : String} {ls : List Lexeme} {last : Lexeme}
    (h : scan text = ls.map .ok ++ [.ok last]) {tail : List Char} (htail : Text.Stops tail) :
    Reads text.toList tail (ls.map word) := by
  have hlast : last.token = .eof := by rw [(ends_of_scan h).2]
  exact reads_of_scanFrom htail 0 text.toList ls last h hlast

end Lexeme

end FieldQuery

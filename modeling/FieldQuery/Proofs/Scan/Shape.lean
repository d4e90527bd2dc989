/-
What lexemes look like.

The token of a lexeme says something about its text: a field is a dot and word
characters, and quoted text has its mark at both ends and nowhere between them.  Both
are read off `Longest`, so this is no further fact about the scanner; it is what the
printed form of a tree needs of one, without the condition on what follows.
-/
import FieldQuery.Proofs.Scan.Lossless

namespace FieldQuery

/-- The text has a mark at both ends and nowhere between them. -/
def Text.Marked (cs : List Char) : Prop :=
  ∃ mark body, mark ∉ body ∧ cs = mark :: (body ++ [mark])

namespace Lexeme

/-- The text of the lexeme is of the form that its token asks for. -/
structure Shaped (l : Lexeme) : Prop where
  field : l.token = .field → ∀ c ∈ l.text.toList, c = '.' ∨ Text.isWord c = true
  quoted : l.token = .char ∨ l.token = .string → Text.Marked l.text.toList

theorem Longest.shaped {after : List Char} {l : Lexeme}
    (h : Longest after l.text.toList l.token) : l.Shaped := by
  constructor
  · intro htoken c hc
    rw [htoken] at h
    obtain ⟨name, hpiece, hname, -⟩ := h
    rw [hpiece] at hc
    exact (List.mem_cons.mp hc).imp_right (hname c)
  · intro htoken
    rcases htoken with htoken | htoken
    · rw [htoken] at h
      obtain ⟨body, hbody, hpiece⟩ := h
      exact ⟨'\'', body, hbody, hpiece⟩
    · rw [htoken] at h
      obtain ⟨body, hbody, hpiece⟩ := h
      exact ⟨'"', body, hbody, hpiece⟩

/-- Every lexeme of a text is of the form that its token asks for. -/
theorem shaped_of_scan {text : String} {ls : List Lexeme} {last : Lexeme}
    (h : scan text = ls.map .ok ++ [.ok last]) : ∀ l ∈ ls, l.Shaped := by
  intro l hl
  have hmem : .ok l ∈ scan text := by
    rw [h]
    exact List.mem_append_left _ (List.mem_map_of_mem hl)
  have htoken := (ends_of_scan h).1 l hl
  obtain ⟨before, after, -, -, hlongest⟩ := longest_of_mem_scanFrom 0 text.toList l hmem htoken
  exact hlongest.shaped

end Lexeme

end FieldQuery

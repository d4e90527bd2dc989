/-
Text with other blanks between its lexemes.

A lexeme needs nothing of what follows it but that it stops there, `Longest.of_stops`,
and a blank stops every lexeme because none takes one in.  So each lexeme of a text is
read as itself in front of any blank, whatever stood behind it before.  Therefore the
lexemes of a text can be written with any blanks between them, so long as there are
some, and are cut into the same lexemes again.

Where there is no blank nothing of this holds: `a` and `b` side by side are one word.
The first gap and the last one are free, because nothing stands on their other side.
-/
import FieldQuery.Proofs.Scan.Continued

namespace FieldQuery

namespace Text

/-- No lexeme takes in a blank that follows it. -/
theorem stops_of_blank {gap rest : List Char} (hgap : ∀ c ∈ gap, isBlank c = true)
    (hrest : Stops rest) : Stops (gap ++ rest) := by
  refine forall_head_append (fun c hc => ?_) hrest
  have hblank := hgap c (List.mem_of_mem_head? hc)
  refine ⟨isWord_of_isBlank hblank, ?_, ?_⟩
  · rintro rfl
    exact absurd hblank (by decide)
  · rintro rfl
    exact absurd hblank (by decide)

end Text

namespace Lexeme

/-! ### Gaps between lexemes

The text with other gaps is written gap by gap.  Reading it goes the other way through
the list: a lexeme is read in front of its actual rest, which begins with the next gap.
-/

/-- These gaps can stand in front of the lexemes of a text, and this one behind the last: they
are blank, and none between two lexemes is empty. -/
structure Spaces (gaps : List String) (final : String) (ls : List Lexeme) : Prop where
  length_eq : gaps.length = ls.length
  blank : ∀ gap ∈ gaps, ∀ c ∈ gap.toList, Text.isBlank c = true
  blankFinal : ∀ c ∈ final.toList, Text.isBlank c = true
  between : ∀ gap ∈ gaps.tail, gap ≠ ""

theorem toList_interleave_cons (gap : String) (gaps : List String) (piece : String)
    (pieces : List String) (final : String) :
    (Text.interleave (gap :: gaps) (piece :: pieces) final).toList =
      gap.toList ++ (piece.toList ++ (Text.interleave gaps pieces final).toList) := by
  simp [Text.interleave, String.join_cons]

/-- Nothing that begins with one of the gaps goes on with a lexeme. -/
theorem stops_interleave {gaps pieces : List String} {final : String}
    (hlength : gaps.length = pieces.length)
    (hblank : ∀ gap ∈ gaps, ∀ c ∈ gap.toList, Text.isBlank c = true)
    (hfinal : ∀ c ∈ final.toList, Text.isBlank c = true) (hne : ∀ gap ∈ gaps, gap ≠ "") :
    Text.Stops (Text.interleave gaps pieces final).toList := by
  cases gaps with
  | nil =>
      have hstops := Text.stops_of_blank hfinal Text.stops_nil
      rw [List.append_nil] at hstops
      have htext : Text.interleave [] pieces final = final := by simp [Text.interleave]
      rwa [htext]
  | cons gap gaps =>
      cases pieces with
      | nil => simp at hlength
      | cons piece pieces =>
          rw [toList_interleave_cons]
          intro c hc
          have hgap : gap.toList ≠ [] := by simpa using hne gap List.mem_cons_self
          obtain ⟨first, rest, hcons⟩ := List.exists_cons_of_ne_nil hgap
          rw [hcons, List.cons_append] at hc
          refine Text.stops_of_blank (hblank gap List.mem_cons_self) Text.stops_nil c ?_
          rw [hcons]
          exact hc

/-- Lexemes that are read as themselves are read again with other gaps between them. -/
theorem reads_interleave {ls : List Lexeme} {final : String}
    (hself : ∀ l ∈ ls, ∀ tail, Text.Stops tail → Reads l.text.toList tail [l.word]) :
    ∀ {gaps : List String}, Spaces gaps final ls →
      Reads (Text.interleave gaps (ls.map text) final).toList [] (ls.map word) := by
  induction ls with
  | nil =>
      intro gaps h
      obtain rfl := List.length_eq_zero_iff.mp h.length_eq
      have htext : Text.interleave [] (([] : List Lexeme).map text) final = final := by
        simp [Text.interleave]
      rw [htext]
      exact reads_blank h.blankFinal []
  | cons l rest ih =>
      intro gaps h
      obtain ⟨hl, hrest⟩ := List.forall_mem_cons.mp hself
      cases gaps with
      | nil => simpa using h.length_eq
      | cons gap gaps =>
          obtain ⟨hgap, hgaps⟩ := List.forall_mem_cons.mp h.blank
          have hlength : gaps.length = rest.length := Nat.succ.inj h.length_eq
          have hbehind : Spaces gaps final rest :=
            ⟨hlength, hgaps, h.blankFinal, fun g hg => h.between g (List.mem_of_mem_tail hg)⟩
          have hstops : Text.Stops (Text.interleave gaps (rest.map text) final).toList :=
            stops_interleave (by simpa using hlength) hgaps h.blankFinal h.between
          rw [List.map_cons, toList_interleave_cons]
          refine (reads_blank hgap _).append ((hl _ ?_).append (ih hrest hbehind))
          rwa [List.append_nil]

/-- A text is cut into the same words with other blanks between its lexemes. -/
theorem scan_interleave {q : String} {ls : List Lexeme} {last : Lexeme}
    (h : scan q = ls.map .ok ++ [.ok last]) {gaps : List String} {final : String}
    (hgaps : Spaces gaps final ls) :
    ∃ (ls' : List Lexeme) (last' : Lexeme), ls'.map word = ls.map word ∧
      scan (Text.interleave gaps (ls.map text) final) = ls'.map .ok ++ [.ok last'] := by
  have hself : ∀ l ∈ ls, ∀ tail, Text.Stops tail → Reads l.text.toList tail [l.word] := by
    intro l hl tail htail
    have hmem : .ok l ∈ scan q := by
      rw [h]
      exact List.mem_append_left _ (List.mem_map_of_mem hl)
    have htoken := (ends_of_scan h).1 l hl
    obtain ⟨before, after, -, -, hlongest⟩ := longest_of_mem_scanFrom 0 q.toList l hmem htoken
    have hreads := reads_lexeme (hlongest.of_stops htail)
    rwa [String.ofList_toList] at hreads
  have hscan := (reads_interleave hself hgaps).scan
  rwa [String.ofList_toList] at hscan

end Lexeme

end FieldQuery

/-
What a text that is a query looks like.

A query reads its text to the end, so a text that is one is cut without error, and
nothing groups before its first `where`.  There are two kinds of such texts,
`exists_cut_of_parse`: those without a `where`, which are read as the paths among their
lexemes, and those with one, which are read with the condition that follows it.

That the text is cut without error is worth a proof because the scanner stops at its
first error and the reader may stop before it gets there.  A reader that gives a query
has stopped nowhere: the error would stand in a broken phrase, and no reading passes
one.
-/
import FieldQuery.Proofs.Condition.Filter

namespace FieldQuery

/-! ### Texts that are cut short by an error

The error is an item at the end, and grouping keeps it as a phrase of its own, with the
fields that it has cut short.
-/

/-- Items of which none is terminal are lexemes. -/
theorem Lexeme.exists_map_ok {items : List (Except ScanError Lexeme)}
    (h : ∀ item ∈ items, isTerminal item = false) :
    ∃ ls : List Lexeme, items = ls.map .ok ∧ ∀ l ∈ ls, l.token ≠ .eof := by
  induction items with
  | nil => exact ⟨[], rfl, by simp⟩
  | cons item rest ih =>
      obtain ⟨hitem, hrest⟩ := List.forall_mem_cons.mp h
      obtain ⟨ls, rfl, heof⟩ := ih hrest
      cases item with
      | error e => simp [isTerminal] at hitem
      | ok l => exact ⟨l :: ls, rfl, List.forall_mem_cons.mpr ⟨beq_eq_false_iff_ne.mp hitem, heof⟩⟩

/-- Where the text cannot be cut any further stands a broken phrase. -/
theorem Phrase.exists_broken {ls : List Lexeme} (heof : ∀ l ∈ ls, l.token ≠ .eof)
    (e : ScanError) : ∃ fields, Phrase.broken fields e ∈ ofLexemes (ls.map .ok ++ [.error e]) := by
  obtain ⟨front, fields, -, hphrases⟩ := ofLexemes_error heof e
  exact ⟨fields, by simp [hphrases]⟩

theorem Condition.State.not_broken {phrases : List Phrase} {s final : State}
    (h : s.steps phrases = some final) (fields : List Lexeme) (e : ScanError) :
    Phrase.broken fields e ∉ phrases := by
  induction phrases generalizing s with
  | nil => exact List.not_mem_nil
  | cons p rest ih =>
      unfold steps at h
      cases hstep : s.step p with
      | error refusal => simp [hstep] at h
      | ok next =>
          rw [hstep] at h
          intro hmem
          rcases List.mem_cons.mp hmem with rfl | hmem
          · -- a broken phrase is refused in every state
            unfold step at hstep
            split at hstep <;> simp_all
          · exact ih h hmem

theorem Reading.not_broken {operators size : Nat} {phrases : List Phrase} {q : Query}
    (fields : List Lexeme) (e : ScanError) : ∀ {selectors : List String},
      (nextFrom operators size selectors phrases).1 = .ok q →
        Phrase.broken fields e ∉ phrases := by
  induction phrases with
  | nil =>
      intro selectors _
      exact List.not_mem_nil
  | cons p rest ih =>
      intro selectors h hmem
      cases p with
      | path first more =>
          rw [nextFrom] at h
          exact ih h ((List.mem_cons.mp hmem).resolve_left (by simp))
      | broken others error => simp [nextFrom] at h
      | lexeme l =>
          obtain hmem := (List.mem_cons.mp hmem).resolve_left (by simp)
          rw [nextFrom] at h
          by_cases hwhere : l.token = .whereKeyword
          · rw [if_pos hwhere, Query.nextCondition_eq_ok_iff] at h
            obtain ⟨t, ht, -⟩ := h
            obtain ⟨final, hsteps, -⟩ := (Condition.run_eq_ok_iff _ _ _ _).mp ht
            exact Condition.State.not_broken hsteps fields e hmem
          · rw [if_neg hwhere] at h
            by_cases hgrouping : l.token.isGrouping = true
            · rw [if_pos hgrouping] at h
              simp at h
            · rw [if_neg hgrouping] at h
              exact ih h hmem

namespace Query

theorem scan_of_parse {text : String} {q : Query} (h : parse text = .ok q) :
    ∃ (ls : List Lexeme) (last : Lexeme), Lexeme.scan text = ls.map .ok ++ [.ok last] := by
  obtain ⟨init, last, hscan, -, hinit⟩ := (Lexeme.faithful_scan text).terminal
  obtain ⟨ls, rfl, heof⟩ := Lexeme.exists_map_ok hinit
  cases last with
  | ok last => exact ⟨ls, last, hscan⟩
  | error e =>
      obtain ⟨fields, hbroken⟩ := Phrase.exists_broken heof e
      rw [← hscan] at hbroken
      exact absurd hbroken (Reading.not_broken fields e h)

/-! ### The two kinds of queries

The first lexeme that is not passed over decides the kind.
-/

/-- The text is cut without error and has neither a `where` nor anything that groups. -/
structure CutFree (text : String) (ls : List Lexeme) : Prop where
  scan : ∃ last : Lexeme, Lexeme.scan text = ls.map .ok ++ [.ok last]
  free : ∀ l ∈ ls, l.token ≠ .whereKeyword ∧ l.token.isGrouping = false

theorem parse_of_cutFree {text : String} {ls : List Lexeme} (h : CutFree text ls) :
    parse text = .ok ⟨(Phrase.group ls).filterMap Reading.path?, none⟩ := by
  obtain ⟨last, hscan⟩ := h.scan
  have hpasses := Reading.passes_group (Lexeme.ends_of_scan hscan).1 h.free
  rw [parse_eq_nextFrom, Phrase.ofText_eq_group hscan, ← List.append_nil (Phrase.group ls),
    Reading.nextFrom_append _ _ _ _ _ hpasses, Reading.nextFrom, List.nil_append, List.append_nil]

/-- Whether a reading that has not met a `where` passes over the lexeme. -/
def passesOver (l : Lexeme) : Bool := l.token != .whereKeyword && !l.token.isGrouping

/-- A reading passes over all lexemes, or over those in front of the first `where` or the first one
that groups. -/
theorem exists_front (ls : List Lexeme) :
    (∀ l ∈ ls, l.token ≠ .whereKeyword ∧ l.token.isGrouping = false) ∨
      ∃ front l behind, ls = front ++ l :: behind ∧
        (∀ l ∈ front, l.token ≠ .whereKeyword ∧ l.token.isGrouping = false) ∧
          (l.token = .whereKeyword ∨ l.token.isGrouping = true) := by
  have hfree : ∀ l ∈ ls.takeWhile passesOver,
      l.token ≠ .whereKeyword ∧ l.token.isGrouping = false := by
    intro l hl
    simpa [passesOver] using List.mem_takeWhile_imp hl
  have hsplit := List.takeWhile_append_dropWhile (p := passesOver) (l := ls)
  cases hrest : ls.dropWhile passesOver with
  | nil =>
      rw [hrest, List.append_nil] at hsplit
      rw [hsplit] at hfree
      exact .inl hfree
  | cons l behind =>
      rw [hrest] at hsplit
      refine .inr ⟨_, l, behind, hsplit.symm, hfree, ?_⟩
      by_cases hwhere : l.token = .whereKeyword
      · exact .inl hwhere
      · have hhead := List.head?_dropWhile_not passesOver ls
        rw [hrest] at hhead
        exact .inr (by simpa [passesOver, hwhere] using hhead)

/-- A text that is a query has no `where`, or is cut at its first one. -/
theorem exists_cut_of_parse {text : String} {q : Query} (h : parse text = .ok q) :
    (∃ ls, CutFree text ls) ∨ ∃ before w ls, CutAtWhere text before w ls := by
  obtain ⟨ls, last, hscan⟩ := scan_of_parse h
  rcases exists_front ls with hfree | ⟨front, l, behind, rfl, hfree, hwhere | hgrouping⟩
  · exact .inl ⟨ls, ⟨last, hscan⟩, hfree⟩
  · exact .inr ⟨front, l, behind, ⟨last, hscan⟩, hwhere, hfree⟩
  · rw [List.map_append, List.map_cons, List.append_assoc, List.cons_append] at hscan
    rw [parse_of_grouping hscan hfree hgrouping] at h
    simp at h

end Query

end FieldQuery

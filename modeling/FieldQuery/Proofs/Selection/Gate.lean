/-
Conditions gate selections.

A text that selects fields and a text that asks for a condition can be joined by a
space.  Each part is then read as it is by itself: the lexemes of the first go on in
front of the space as in front of the end, and the condition is read from its words
alone, wherever these stand.  So the joined query fails where the selection fails and
otherwise gives the selection or, where the condition does not hold, nothing.

Two things could come between the parts.  Operators count towards a limit, but those
among the selectors are passed over and not counted.  And a text in front of the
condition moves every position in it, but positions occur only in errors, and of the
condition it is assumed that it has none.
-/
import FieldQuery.Proofs.Condition.Parsed
import FieldQuery.Proofs.Condition.Words
import FieldQuery.Proofs.Scan.Continued
import FieldQuery.Run
import Mathlib

namespace FieldQuery

namespace Query

/-! ### Reading the joined text

The texts are cut separately and put together as items.  That `where` begins a condition
is a fact about the second text alone; that no `where` stands in front of it is one
about the first.
-/

/-- A query without a condition is read from a text without `where`. -/
theorem cutFree_of_parse {text : String} {selectors : List String}
    (h : parse text = .ok ⟨selectors, none⟩) :
    ∃ ls, CutFree text ls ∧ selectors = (Phrase.group ls).filterMap Reading.path? := by
  rcases exists_cut_of_parse h with ⟨ls, hls⟩ | ⟨before, w, ls, hcut⟩
  · refine ⟨ls, hls, ?_⟩
    have hparse := (parse_of_cutFree hls).symm.trans h
    exact (Query.mk.inj (Except.ok.inj hparse)).1.symm
  · obtain ⟨c, -, hquery⟩ := (parse_eq_ok_iff hcut _).mp h
    simp at hquery

/-- A text that begins with `where` is cut into the word and what the rest is cut into by
itself. -/
theorem exists_words_of_where {c : String} {q : Query} (h : parse ("where " ++ c) = .ok q) :
    ∃ w ls, CutAtWhere ("where " ++ c) [] w ls ∧
      Lexeme.Reads c.toList [] (ls.map Lexeme.word) := by
  obtain ⟨all, last, hscan⟩ := scan_of_parse h
  have hlast : last.token = .eof := by rw [(Lexeme.ends_of_scan hscan).2]
  obtain ⟨front, hfront, hrest⟩ := Lexeme.reads_where c.toList 0
  obtain ⟨w, rfl, hw⟩ := List.map_eq_singleton_iff.mp hfront
  have hsplit : Lexeme.scan ("where " ++ c) = [w].map .ok ++
      Lexeme.scanFrom (0 + Text.byteLength "where ".toList) c.toList := by
    rw [← hrest, Lexeme.scan, String.toList_append]
  have htoken : w.token = .whereKeyword := Lexeme.token_of_word hw
  cases all with
  | nil =>
      rw [hsplit] at hscan
      obtain rfl := Except.ok.inj (List.cons.inj hscan).1
      simp [htoken] at hlast
  | cons l ls =>
      have hall := hsplit.symm.trans hscan
      obtain ⟨hl, hbehind⟩ := List.cons.inj hall
      obtain rfl := Except.ok.inj hl
      refine ⟨w, ls, ⟨⟨last, hscan⟩, htoken, by simp⟩, ?_⟩
      exact Lexeme.reads_of_scanFrom Text.stops_nil _ _ ls last hbehind hlast

/-- Joined by a space, selectors and a condition are read as both. -/
theorem parse_where {s c : String} {selectors : List String} {q : Query}
    (hs : parse s = .ok ⟨selectors, none⟩) (hc : parse ("where " ++ c) = .ok q) :
    ∃ t, q = ⟨[], some t⟩ ∧ parse (s ++ " where " ++ c) = .ok ⟨selectors, some t⟩ := by
  obtain ⟨front, hfree, rfl⟩ := cutFree_of_parse hs
  obtain ⟨w, ls, hcut, hreadsC⟩ := exists_words_of_where hc
  obtain ⟨t, ⟨hderives, hisCondition, hwithin, hfew⟩, rfl⟩ := (parse_eq_ok_iff hcut q).mp hc
  refine ⟨t, rfl, ?_⟩
  -- the words of both texts and the `where` between them
  obtain ⟨last, hscan⟩ := hfree.scan
  have hreadsS := Lexeme.reads_of_scan hscan
    (Text.stops_space ("where ".toList ++ c.toList ++ []))
  have hreads := hreadsS.spaced.append ((Lexeme.reads_where _).append hreadsC)
  have hchars : s.toList ++ [' '] ++ ("where ".toList ++ c.toList) =
      (s ++ " where " ++ c).toList := by
    have hword : (" where " : String).toList = ' ' :: "where ".toList := rfl
    rw [String.toList_append, String.toList_append, hword, List.append_assoc, List.append_assoc]
    rfl
  rw [hchars] at hreads
  have hfront : ∀ x ∈ front.map Lexeme.word, x.1 ≠ .whereKeyword ∧ x.1.isGrouping = false := by
    intro x hx
    obtain ⟨l, hl, rfl⟩ := List.mem_map.mp hx
    exact hfree.free l hl
  obtain ⟨before, w', ls', hcut', hbefore, hls'⟩ := exists_cutAtWhere hreads hfront
  rw [String.ofList_toList] at hcut'
  refine (parse_eq_ok_iff hcut' _).mpr ⟨t, ⟨hderives.congr hls', hisCondition,
    hwithin.congr hls', ?_⟩, ?_⟩
  · rw [Condition.operatorCount_congr hls']
    exact hfew
  · rw [Reading.paths_congr hbefore]

/-! ### What the joined query gives

A selection knows nothing of the condition until the values are there: a field that is
missing is reported even if the condition does not hold.
-/

/-- Selecting under a condition fails where selecting does, and otherwise the condition
decides. -/
theorem select_some (merge : Merge) (selectors : List String) (t : Tree) (d : Document) :
    (∃ e, select merge ⟨selectors, none⟩ d = .error e ∧
      select merge ⟨selectors, some t⟩ d = .error e) ∨
    ∃ v, select merge ⟨selectors, none⟩ d = .ok (.selected v) ∧
      select merge ⟨selectors, some t⟩ d =
        .ok (if t.holds d then .selected v else .filtered) := by
  unfold select
  dsimp only
  cases selectors.find? fun path => !d.contains path with
  | some path => exact .inl ⟨.missing path, rfl, rfl⟩
  | none => exact .inr ⟨gather merge selectors d, rfl, rfl⟩

/--
**A condition only gates a selection.**  The first text is read as selectors alone and the second,
behind `where`, as a query.  Then their join gives the error that the selection gives, and where
the selection gives an outcome, the join is filtered if the condition is and gives the same
outcome if the condition selects; there is no third case.
-/
theorem run_where {s c : String} {selectors : List String} {q : Query}
    (hs : parse s = .ok ⟨selectors, none⟩) (hc : parse ("where " ++ c) = .ok q) (merge : Merge)
    (v : Value) :
    (∀ e, run merge s v = .error e → run merge (s ++ " where " ++ c) v = .error e) ∧
    ∀ outcome, run merge s v = .ok outcome →
      (run merge ("where " ++ c) v = .ok .filtered ∧
        run merge (s ++ " where " ++ c) v = .ok .filtered) ∨
      (∃ w, run merge ("where " ++ c) v = .ok (.selected w)) ∧
        run merge (s ++ " where " ++ c) v = .ok outcome := by
  obtain ⟨t, rfl, hjoined⟩ := parse_where hs hc
  unfold run
  rw [hs, hc, hjoined]
  dsimp only
  unfold evaluate
  cases hd : Document.ofValue? v with
  | none => simp
  | some d =>
      have hgate : select merge ⟨[], some t⟩ d =
          .ok (if t.holds d then .selected (gather merge [] d) else .filtered) := rfl
      rcases select_some merge selectors t d with ⟨e, hplain, hboth⟩ | ⟨w, hplain, hboth⟩
      · simp [hplain, hboth]
      · cases hholds : t.holds d with
        | false => simp [hplain, hboth, hgate, hholds]
        | true => simp [hplain, hboth, hgate, hholds]

set_option maxRecDepth 2000 in
/-- A quoted `where` among the selectors, and a condition that holds. -/
theorem run_where_operators :
    run .overwrite (".a == 'where'" ++ " where " ++ ".b == 1 or .b")
      (.object [("a", .null), ("b", .integer 1)]) = .ok (.selected .null) := by
  have hs : parse ".a == 'where'" = .ok ⟨[".a"], none⟩ := by cbv
  have hc : parse ("where " ++ ".b == 1 or .b") =
      .ok ⟨[], some (.binary .or (.binary (.compare .eq) (.path ".b") (.integer 1))
        (.path ".b"))⟩ := by cbv
  have hplain : run .overwrite ".a == 'where'" (.object [("a", .null), ("b", .integer 1)]) =
      .ok (.selected .null) := by
    unfold run
    rw [hs]
    rfl
  have hholds : run .overwrite ("where " ++ ".b == 1 or .b")
      (.object [("a", .null), ("b", .integer 1)]) ≠ .ok .filtered := by
    unfold run
    rw [hc]
    intro h
    cases h
  rcases (run_where hs hc .overwrite _).2 _ hplain with ⟨hfiltered, -⟩ | ⟨-, hjoined⟩
  · exact absurd hfiltered hholds
  · exact hjoined

end Query

end FieldQuery

/-
What a query is outside its condition.

In front of the first `where` only two kinds of lexemes count: fields, of which every
run that is as long as it can be is one path, and what groups, which is an error.
Numbers, texts and operators that stand there leave no trace except that they end a run.

`FieldRuns` cuts lexemes into runs and what stands between them without saying how they
are found.  The reader finds them by grouping lexemes into phrases from the end of the
text, so what it does is recovered by induction on the runs, one run and its gap at a
time (`paths_of_fieldRuns`).  A text that is a query is its runs and, where there is a
`where`, one filter behind them.

The other half is about texts that are no queries.  What groups in front of the first
`where` is at fault even if the text cannot be cut behind it, because the phrases are
read in order and the reader never gets there.
-/
import FieldQuery.Proofs.Condition.Parsed
import Mathlib

namespace FieldQuery

namespace Lexeme

/-- The runs of fields among lexemes, in their order and each as long as it can be. -/
inductive FieldRuns : List Lexeme → List (List Lexeme) → Prop
  | none {gap : List Lexeme} (hgap : ∀ l ∈ gap, l.token ≠ .field) : FieldRuns gap []
  /-- The first run, what stands in front of it and what stands behind it. -/
  | run {gap run rest : List Lexeme} {runs : List (List Lexeme)}
      (hgap : ∀ l ∈ gap, l.token ≠ .field) (hne : run ≠ []) (hrun : ∀ l ∈ run, l.token = .field)
      (hends : ∀ l ∈ rest.head?, l.token ≠ .field) (hrest : FieldRuns rest runs) :
      FieldRuns (gap ++ run ++ rest) (run :: runs)

/-- The text of lexemes without anything between them. -/
def joined (run : List Lexeme) : String := String.join (run.map text)

/-- Lexemes are cut into runs of fields in some way. -/
theorem exists_fieldRuns (ls : List Lexeme) : ∃ runs, FieldRuns ls runs := by
  induction ls with
  | nil => exact ⟨[], .none (by simp)⟩
  | cons l rest ih =>
      obtain ⟨runs, hruns⟩ := ih
      by_cases hfield : l.token = .field
      · have hl : ∀ l' ∈ [l], l'.token = .field := List.forall_mem_singleton.mpr hfield
        cases hruns with
        | none hgap =>
            exact ⟨[[l]], @FieldRuns.run [] [l] _ _ (by simp) (by simp) hl
              (fun l' hl' => hgap l' (List.mem_of_head? hl')) (.none hgap)⟩
        | @run gap run rest runs hgap hne hrun hends hrest =>
            cases gap with
            | nil =>
                -- the field goes on with the run behind it
                exact ⟨(l :: run) :: runs, @FieldRuns.run [] (l :: run) _ _ (by simp) (by simp)
                  (List.forall_mem_cons.mpr ⟨hfield, hrun⟩) hends hrest⟩
            | cons first gap =>
                refine ⟨[l] :: run :: runs, @FieldRuns.run [] [l] _ _ (by simp) (by simp) hl ?_
                  (.run hgap hne hrun hends hrest)⟩
                intro l' hl'
                obtain rfl := Option.some.inj hl'
                exact hgap _ List.mem_cons_self
      · cases hruns with
        | none hgap => exact ⟨[], .none (List.forall_mem_cons.mpr ⟨hfield, hgap⟩)⟩
        | @run gap run rest runs hgap hne hrun hends hrest =>
            have hgap : ∀ l' ∈ l :: gap, l'.token ≠ .field :=
              List.forall_mem_cons.mpr ⟨hfield, hgap⟩
            exact ⟨run :: runs, @FieldRuns.run (l :: gap) run _ _ hgap hne hrun hends hrest⟩

end Lexeme

open Lexeme (FieldRuns joined)

/-! ### The paths of a text are its runs

A lexeme that stands in a gap is no field, so it is a phrase of its own and no path; a
run is one phrase however long it is, since what follows it is no field.
-/

/-- The text of a path is all of its texts. -/
theorem Phrase.pathText_eq_joined (first : Lexeme) (more : List Lexeme) :
    pathText first more = joined (first :: more) := by
  have hall : ∀ ls : List Lexeme, ls.foldr (fun l text => l.text ++ text) "" = joined ls := by
    intro ls
    induction ls with
    | nil => rfl
    | cons l rest ih => rw [List.foldr_cons, ih, joined, joined, List.map_cons, String.join_cons]
  exact hall (first :: more)

theorem Reading.paths_of_gap {gap : List Lexeme}
    (hgap : ∀ l ∈ gap, l.token ≠ .field ∧ l.token ≠ .eof) :
    (Phrase.group gap).filterMap path? = [] := by
  rw [Phrase.group_others hgap, List.filterMap_map]
  exact List.filterMap_eq_nil_iff.mpr fun _ _ => rfl

/-- The paths among lexemes are their runs of fields. -/
theorem Reading.paths_of_fieldRuns {ls : List Lexeme} {runs : List (List Lexeme)}
    (h : FieldRuns ls runs) (heof : ∀ l ∈ ls, l.token ≠ .eof) :
    (Phrase.group ls).filterMap path? = runs.map joined := by
  induction h with
  | none hgap => exact paths_of_gap fun l hl => ⟨hgap l hl, heof l hl⟩
  | @run gap run rest runs hgap hne hrun hends hrest ih =>
      obtain ⟨heofFront, heofRest⟩ := List.forall_mem_append.mp heof
      obtain ⟨heofGap, heofRun⟩ := List.forall_mem_append.mp heofFront
      obtain ⟨first, more, rfl⟩ := List.exists_cons_of_ne_nil hne
      have hseam : ∀ l ∈ gap.getLast?, l.token ≠ .field :=
        fun l hl => hgap l (List.mem_of_getLast? hl)
      rw [Phrase.group_append heofFront (.inr hends), Phrase.group_append heofGap (.inl hseam),
        Phrase.group_fields first more hrun, List.filterMap_append, List.filterMap_append,
        paths_of_gap fun l hl => ⟨hgap l hl, heofGap l hl⟩, ih heofRest, List.map_cons,
        ← Phrase.pathText_eq_joined]
      rfl

namespace Query

/-- The lexemes in front of the first `where`, or all of them. -/
def beforeWhere (ls : List Lexeme) : List Lexeme := ls.takeWhile (·.token != .whereKeyword)

/-- The trees of runs of fields. -/
def runPaths (runs : List (List Lexeme)) : List Tree := runs.map fun run => .path (joined run)

theorem toTree_runs (runs : List (List Lexeme)) (condition? : Option Tree) :
    toTree ⟨runs.map joined, condition?⟩ =
      .sequence (runPaths runs ++ condition?.toList.map Tree.filter) := by
  rw [toTree, List.map_map]
  rfl

theorem beforeWhere_of_free {ls : List Lexeme} (h : ∀ l ∈ ls, l.token ≠ .whereKeyword) :
    beforeWhere ls = ls :=
  List.takeWhile_eq_self_iff.mpr fun l hl => bne_iff_ne.mpr (h l hl)

theorem beforeWhere_append {before ls : List Lexeme} {w : Lexeme}
    (h : ∀ l ∈ before, l.token ≠ .whereKeyword) (hw : w.token = .whereKeyword) :
    beforeWhere (before ++ w :: ls) = before := by
  rw [beforeWhere, List.takeWhile_append_of_pos fun l hl => bne_iff_ne.mpr (h l hl),
    List.takeWhile_cons_of_neg (by simp [hw]), List.append_nil]

/--
**Outside its condition a query is its runs of fields.**  A text that is a query has one path for
every run of fields in front of its first `where`, in their order, and behind them one filter just
if there is a `where`; nothing else leaves a trace.  And a text in which something groups in front
of the first `where` is no query, whatever follows: the error names the first lexeme that does.
-/
theorem parse_runs (text : String) :
    (∀ q, parse text = .ok q → ∃ ls last runs,
      Lexeme.scan text = ls.map .ok ++ [.ok last] ∧ FieldRuns (beforeWhere ls) runs ∧
        ((∀ l ∈ ls, l.token ≠ .whereKeyword) ∧ q.toTree = .sequence (runPaths runs) ∨
          (∃ l ∈ ls, l.token = .whereKeyword) ∧
            ∃ c, q.toTree = .sequence (runPaths runs ++ [.filter c]))) ∧
    ∀ (front : List Lexeme) (l : Lexeme) (behind : List (Except ScanError Lexeme)),
      Lexeme.scan text = front.map .ok ++ .ok l :: behind →
        (∀ l ∈ front, l.token ≠ .whereKeyword ∧ l.token.isGrouping = false) →
          l.token.isGrouping = true → parse text = .error (.unexpected l) := by
  constructor
  · intro q hq
    rcases exists_cut_of_parse hq with ⟨ls, hls⟩ | ⟨before, w, ls, hcut⟩
    · obtain ⟨last, hscan⟩ := hls.scan
      obtain ⟨runs, hruns⟩ := Lexeme.exists_fieldRuns ls
      have hfree : ∀ l ∈ ls, l.token ≠ .whereKeyword := fun l hl => (hls.free l hl).1
      have heof := (Lexeme.ends_of_scan hscan).1
      rw [parse_of_cutFree hls, Reading.paths_of_fieldRuns hruns heof] at hq
      obtain rfl := Except.ok.inj hq
      refine ⟨ls, last, runs, hscan, ?_, .inl ⟨hfree, ?_⟩⟩
      · rwa [beforeWhere_of_free hfree]
      · rw [toTree_runs, Option.toList_none, List.map_nil, List.append_nil]
    · obtain ⟨last, hscan⟩ := hcut.scan
      obtain ⟨runs, hruns⟩ := Lexeme.exists_fieldRuns before
      obtain ⟨c, -, rfl⟩ := (parse_eq_ok_iff hcut q).mp hq
      refine ⟨_, last, runs, hscan, ?_, .inr ⟨⟨w, by simp, hcut.keyword⟩, c, ?_⟩⟩
      · rwa [beforeWhere_append (fun l hl => (hcut.free l hl).1) hcut.keyword]
      · rw [Reading.paths_of_fieldRuns hruns fun l hl => hcut.ne_eof l (List.mem_append_left _ hl),
          toTree_runs]
        rfl
  · intro front l behind
    exact parse_of_grouping

/-- A number ends a run of fields and a blank does not; and a parenthesis is at fault although the
text cannot be cut behind it. -/
theorem parse_runs_stray :
    (∃ ls last runs c, Lexeme.scan ".a .b 1 .c where .d < 2" = ls.map .ok ++ [.ok last] ∧
      FieldRuns (beforeWhere ls) runs ∧
        runPaths runs ++ [.filter c] = [.path ".a.b", .path ".c", .filter
          (.binary (.compare .lt) (.path ".d") (.integer 2))]) ∧
    parse ".a (.b 'x" = .error (.unexpected ⟨.leftParen, 3, "("⟩) := by
  constructor
  · have hparse : parse ".a .b 1 .c where .d < 2" = .ok ⟨[".a.b", ".c"],
        some (.binary (.compare .lt) (.path ".d") (.integer 2))⟩ := by cbv
    obtain ⟨ls, last, runs, hscan, hruns, ⟨-, htree⟩ | ⟨-, c, htree⟩⟩ := (parse_runs _).1 _ hparse
    · -- the tree of the query ends with a filter, and runs are paths
      have hlast := congrArg List.getLast? (Tree.sequence.inj htree)
      rw [runPaths, List.getLast?_map] at hlast
      cases hrun : runs.getLast? <;> simp [hrun] at hlast
    · exact ⟨ls, last, runs, c, hscan, hruns, (Tree.sequence.inj htree).symm⟩
  · have hscan : Lexeme.scan ".a (.b 'x" =
        [(⟨.field, 0, ".a"⟩ : Lexeme)].map .ok ++ .ok ⟨.leftParen, 3, "("⟩ ::
          [.ok ⟨.field, 4, ".b"⟩, .error (.unterminated 7)] := by cbv
    exact (parse_runs _).2 _ _ _ hscan (by decide) rfl

end Query

end FieldQuery

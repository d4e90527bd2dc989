/-
Trees that are read from a text.

The syntax trees of texts are not all trees: a path stands on one line, text keeps the
marks that it was quoted with, and no number is NaN.  `Legible` says so of every node,
and it holds of the tree of every text that is a query, `Query.legible_of_parse`.  What
lexemes look like carries over to the leaves that they become, and the grammar only puts
legible trees together.

These are the properties that printing a tree needs, and no more: where a label ends
must be seen from the label.
-/
import FieldQuery.Proofs.Condition.Parsed
import FieldQuery.Proofs.Numeric.Rounded
import FieldQuery.Proofs.Scan.Shape

namespace FieldQuery

namespace Tree

/-- The trees right below the root. -/
def children : Tree → List Tree
  | .sequence items => items
  | .filter condition => [condition]
  | .binary _ left right => [left, right]
  | _ => []

/-- What the root says could stand in a text. -/
def Readable : Tree → Prop
  | .path text => '\n' ∉ text.toList
  | .quoted raw => Text.Marked raw.toList
  | .float x => x.isNaN = false
  | _ => True

/-- What every node says could stand in a text. -/
inductive Legible : Tree → Prop
  | node {t : Tree} (hroot : t.Readable) (hchildren : ∀ child ∈ t.children, Legible child) :
      Legible t

theorem Legible.root {t : Tree} (h : Legible t) : t.Readable := by
  cases h with
  | node hroot _ => exact hroot

theorem Legible.children {t : Tree} (h : Legible t) : ∀ child ∈ t.children, Legible child := by
  cases h with
  | node _ hchildren => exact hchildren

/-- A readable root alone is legible. -/
theorem Legible.leaf {t : Tree} (hroot : t.Readable) (hchildren : t.children = []) :
    Legible t := by
  refine .node hroot fun child hchild => ?_
  rw [hchildren] at hchild
  simp at hchild

/-! ### Literals

The value of a literal is made from its text, so its shape is that of a lexeme.
-/

theorem legible_of_integer? {negative : Bool} {digits : List Char} {t : Tree}
    (h : integer? negative digits = some t) : Legible t := by
  unfold integer? at h
  split at h
  · simp at h
  · obtain ⟨n, -, rfl⟩ := Option.map_eq_some_iff.mp h
    exact .leaf trivial rfl

theorem legible_of_float? {negative : Bool} {whole fraction : List Char} {t : Tree}
    (h : float? negative whole fraction = some t) : Legible t := by
  unfold float? at h
  dsimp only at h
  split at h
  · simp at h
  · obtain rfl := Option.some.inj h
    exact .leaf (Double.isNaN_ofDecimal _ _ _) rfl

theorem legible_of_literal? {l : Lexeme} (hl : l.Shaped) {t : Tree} (h : l.literal? = some t) :
    Legible t := by
  have hquoted : l.token = .char ∨ l.token = .string → Legible (.quoted l.text) :=
    fun htoken => .leaf (hl.quoted htoken) rfl
  unfold Lexeme.literal? at h
  split at h
  · obtain rfl := Option.some.inj h
    exact .leaf trivial rfl
  · rename_i htoken
    obtain rfl := Option.some.inj h
    exact hquoted (.inl htoken)
  · rename_i htoken
    obtain rfl := Option.some.inj h
    exact hquoted (.inr htoken)
  · unfold number? at h
    dsimp only at h
    split at h
    · exact legible_of_integer? h
    · exact legible_of_float? h

/-! ### Paths -/

/-- A run of fields stands on one line. -/
theorem legible_pathText {first : Lexeme} {more : List Lexeme}
    (hshaped : ∀ l ∈ first :: more, l.Shaped) (hfields : ∀ l ∈ first :: more, l.token = .field) :
    Legible (.path (Phrase.pathText first more)) := by
  refine .leaf ?_ rfl
  show '\n' ∉ (Phrase.pathText first more).toList
  unfold Phrase.pathText
  generalize first :: more = ls at hshaped hfields
  induction ls with
  | nil => simp
  | cons l rest ih =>
      obtain ⟨hl, hrest⟩ := List.forall_mem_cons.mp hshaped
      obtain ⟨htoken, htokens⟩ := List.forall_mem_cons.mp hfields
      rw [List.foldr_cons, String.toList_append, List.mem_append, not_or]
      refine ⟨fun hmem => ?_, ih hrest htokens⟩
      rcases hl.field htoken _ hmem with hdot | hword
      · exact absurd hdot (by decide)
      · exact absurd hword (by decide)

end Tree

/-- The paths among the phrases of shaped lexemes are legible. -/
theorem Reading.legible_paths {ls : List Lexeme} (heof : ∀ l ∈ ls, l.token ≠ .eof)
    (hls : ∀ l ∈ ls, l.Shaped) {path : String}
    (h : path ∈ (Phrase.group ls).filterMap path?) : Tree.Legible (.path path) := by
  obtain ⟨p, hp, hpath⟩ := List.mem_filterMap.mp h
  cases p with
  | lexeme l => simp [path?] at hpath
  | broken fields error => simp [path?] at hpath
  | path first more =>
      obtain rfl := Option.some.inj hpath
      refine Tree.legible_pathText (fun l hl => hls l ?_) (Phrase.sound_group heof _ hp)
      rw [← Phrase.lexemes_group heof]
      exact List.mem_flatMap_of_mem hp hl

/-! ### Conditions

A derivation has a leaf for every path and every literal and adds nodes above them.
-/

namespace Condition

theorem Listed.legible {ls : List Lexeme} {ts : List Tree} (h : Listed ls ts)
    (hls : ∀ l ∈ ls, l.Shaped) : ∀ t ∈ ts, Tree.Legible t := by
  induction h with
  | nil => simp
  | comma _ _ ih => exact ih (List.forall_mem_cons.mp hls).2
  | literal _ ht _ ih =>
      obtain ⟨hl, hrest⟩ := List.forall_mem_cons.mp hls
      exact List.forall_mem_cons.mpr ⟨Tree.legible_of_literal? hl ht, ih hrest⟩

theorem Derives.legible {part : Part} {ls : List Lexeme} {t : Tree} (h : Derives part ls t)
    (hls : ∀ l ∈ ls, l.Shaped) : Tree.Legible t := by
  induction h with
  | path hfields => exact Tree.legible_pathText hls hfields
  | literal _ ht => exact Tree.legible_of_literal? (hls _ List.mem_cons_self) ht
  | group _ _ _ ih =>
      refine ih fun l hl => hls l ?_
      simp [hl]
  | ofOperand _ ih => exact ih hls
  | list _ hinner _ =>
      refine .node trivial (hinner.legible fun l hl => hls l ?_)
      simp [hl]
  | first _ _ _ ih =>
      refine ih fun l hl => hls l ?_
      simp [hl]
  | binary _ _ _ _ _ ihLeft ihRight =>
      refine .node trivial (List.forall_mem_cons.mpr ⟨?_, List.forall_mem_singleton.mpr ?_⟩)
      · refine ihLeft fun l hl => hls l ?_
        simp [hl]
      · refine ihRight fun l hl => hls l ?_
        simp [hl]

end Condition

/-! ### Queries -/

namespace Query

/-- A query is legible if its paths and its condition are. -/
theorem legible_toTree {q : Query} (hselectors : ∀ path ∈ q.selectors, Tree.Legible (.path path))
    (hcondition : ∀ c ∈ q.condition?, Tree.Legible c) : Tree.Legible q.toTree := by
  refine .node trivial fun child hchild => ?_
  rcases List.mem_append.mp hchild with hmem | hmem
  · obtain ⟨path, hpath, rfl⟩ := List.mem_map.mp hmem
    exact hselectors path hpath
  · obtain ⟨c, hc, rfl⟩ := List.mem_map.mp hmem
    refine .node trivial (List.forall_mem_singleton.mpr (hcondition c ?_))
    simpa using hc

/-- **The tree of a query text is legible.** -/
theorem legible_of_parse {text : String} {q : Query} (h : parse text = .ok q) :
    Tree.Legible q.toTree := by
  rcases exists_cut_of_parse h with ⟨ls, hls⟩ | ⟨before, w, ls, hcut⟩
  · obtain ⟨last, hscan⟩ := hls.scan
    have hshaped := Lexeme.shaped_of_scan hscan
    obtain rfl := Except.ok.inj ((parse_of_cutFree hls).symm.trans h)
    refine legible_toTree (fun path hpath => ?_) (by simp)
    exact Reading.legible_paths (Lexeme.ends_of_scan hscan).1 hshaped hpath
  · obtain ⟨last, hscan⟩ := hcut.scan
    have hshaped := Lexeme.shaped_of_scan hscan
    obtain ⟨c, ⟨hderives, -⟩, rfl⟩ := (parse_eq_ok_iff hcut q).mp h
    refine legible_toTree (fun path hpath => ?_) fun c' hc' => ?_
    · refine Reading.legible_paths (fun l hl => hcut.ne_eof l ?_) (fun l hl => hshaped l ?_) hpath
      · exact List.mem_append_left _ hl
      · exact List.mem_append_left _ hl
    · obtain rfl := Option.some.inj hc'
      refine hderives.legible fun l hl => hshaped l ?_
      simp [hl]

/-- The condition of a query text is legible. -/
theorem legible_condition {text : String} {q : Query} (hq : parse text = .ok q) {c : Tree}
    (hc : q.condition? = some c) : c.Legible := by
  have hfilter : Tree.Legible (.filter c) := by
    refine (legible_of_parse hq).children _ (List.mem_append_right _ ?_)
    simp [hc]
  exact hfilter.children c List.mem_cons_self

end Query

end FieldQuery

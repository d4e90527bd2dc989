/-
Queries that are one path.

Names of word characters, each behind a dot, are cut into one field each and read as one
path, `parse_spelled`; none of the names has to be there, so two dots in a row and a dot
at the end belong to the path like any other.  On a document that has the path the query
gives what stands there, `run_path`.

The dots do all the work.  A field is a dot and the word characters behind it, so the
scanner cuts a path just where the document has joined it, whatever the names look like;
a name that is a keyword of the language is not read as one, because it stands behind a
dot.
-/
import FieldQuery.Proofs.Condition.Filter
import FieldQuery.Proofs.Document.Spelled
import FieldQuery.Run

namespace FieldQuery

namespace Lexeme

/-- Names behind dots are cut into one field each. -/
theorem reads_spelled {names : List String} {rest : List Char}
    (hnames : ∀ name ∈ names, ∀ c ∈ name.toList, Text.isWord c = true)
    (hrest : ∀ c ∈ rest.head?, Text.isWord c = false) :
    Reads (Path.spelled names) rest ((names.map ("." ++ ·)).map (Prod.mk Token.field)) := by
  induction names with
  | nil => exact reads_nil rest
  | cons name names ih =>
      obtain ⟨hname, hmore⟩ := List.forall_mem_cons.mp hnames
      have htext : String.ofList ('.' :: name.toList) = "." ++ name := by
        rw [← String.toList_inj]
        simp
      have hdot : ∀ c ∈ (Path.spelled names).head?, Text.isWord c = false := by
        intro c hc
        rw [Path.head_spelled names c hc]
        decide
      have hfield := reads_field hname (Text.forall_head_append hdot hrest)
      rw [htext] at hfield
      exact hfield.append (ih hmore)

/-- A path whose names are made of word characters is scanned as the fields of that path. -/
theorem scan_spelled {path : String} {names : List String} (hne : names ≠ [])
    (hnames : ∀ name ∈ names, ∀ c ∈ name.toList, Text.isWord c = true)
    (hpath : Path.spelled names = path.toList) : ∃ first more last,
      scan path = (first :: more).map .ok ++ [.ok last] ∧
        (∀ l ∈ first :: more, l.token = .field) ∧ Phrase.pathText first more = path := by
  have hreads := @reads_spelled names [] hnames (by simp)
  rw [hpath] at hreads
  obtain ⟨ls, last, hwords, hscan⟩ := hreads.scan
  rw [String.ofList_toList] at hscan
  obtain ⟨first, more, rfl, hfields, htext⟩ :=
    Phrase.fields_of_words (by simpa using hne) hwords
  have hjoined : (names.map ("." ++ ·)).foldr (· ++ ·) "" = path := by
    rw [← String.toList_inj, Path.toList_foldr_fields, hpath]
  exact ⟨first, more, last, hscan, hfields, htext.trans hjoined⟩

end Lexeme

namespace Query

theorem parse_spelled {path : String} {names : List String} (hne : names ≠ [])
    (hnames : ∀ name ∈ names, ∀ c ∈ name.toList, Text.isWord c = true)
    (hpath : Path.spelled names = path.toList) : parse path = .ok ⟨[path], none⟩ := by
  obtain ⟨first, more, last, hscan, hfields, htext⟩ := Lexeme.scan_spelled hne hnames hpath
  have hphrases : Phrase.ofText path = [.path first more] := by
    rw [Phrase.ofText_eq_group hscan, Phrase.group_fields first more hfields]
  rw [parse_eq_nextFrom, hphrases, Reading.nextFrom, Reading.nextFrom, htext]
  rfl

/-- A single path that the document has is selected as it is, if the document is accepted. -/
theorem select_path {d : Document} {path : String} {v : Value} (h : d.get? path = some v)
    (condition? : Option Tree) (merge : Merge) :
    select merge ⟨[path], condition?⟩ d =
      .ok (if accepts ⟨[path], condition?⟩ d then .selected v else .filtered) := by
  obtain ⟨node, hnode, rfl⟩ := Option.map_eq_some_iff.mp h
  have hcontains : d.contains path = true := by
    rw [Document.contains, hnode]
    rfl
  have hgather : gather merge [path] d = node.value := by
    rw [gather, List.filterMap_cons, hnode]
    rfl
  simp only [select, List.find?_cons, hcontains, Bool.not_true, List.find?_nil, hgather]

theorem run_path {path : String} (hparse : parse path = .ok ⟨[path], none⟩) {v w : Value}
    {d : Document} (hd : Document.ofValue? v = some d) (hw : d.get? path = some w)
    (merge : Merge) : run merge path v = .ok (.selected w) := by
  have haccepts : accepts ⟨[path], none⟩ d = true := rfl
  rw [run, hparse]
  simp only [evaluate, hd, select_path hw none merge, haccepts, if_true]

end Query

end FieldQuery

/-
What formulas mean.

`Holds` is the ordinary reading: a comparison holds if both sides have values, the
values are ordered and the relation accepts the order, and `and` and `or` are
conjunction and disjunction.  A query that asks for the whole document under a formula
gives the document exactly if the formula holds on it, `run_query`.

Nothing is lost in the evaluation of a formula, although the evaluation of conditions
knows more than two outcomes on the way.  A field that is missing and values without an
order make a comparison false, and from there on there is no third value.
-/
import FieldQuery.Proofs.Formula.Written
import FieldQuery.Proofs.Selection.Whole

namespace FieldQuery

namespace Formula

/-- Whether the formula holds on a document. -/
def Holds (d : Document) : Formula → Prop
  | .atom path relation side =>
    ∃ a b order, d.get? path.text = some a ∧ side.value? d = some b ∧
      a.compare? b = some order ∧ relation.accepts order = true
  | .and left right => left.Holds d ∧ right.Holds d
  | .or left right => left.Holds d ∨ right.Holds d

theorem relates_iff (d : Document) (path : KeyPath) (relation : Relation) (side : Side) :
    Tree.relates d relation (.path path.text) side.tree = true ↔
      (Formula.atom path relation side).Holds d := by
  cases hpath : d.get? path.text with
  | none => simp [Tree.relates, Holds, hpath]
  | some a =>
      have hcompare := side.compare_operand? d a
      have hrelates : Tree.relates d relation (.path path.text) side.tree =
          (((side.tree.operand? d).bind a.compare?).map relation.accepts).getD false := by
        simp only [Tree.relates, hpath]
        cases side.tree.operand? d <;> rfl
      rw [hrelates, hcompare]
      simp only [Holds, hpath]
      cases hside : side.value? d with
      | none => simp
      | some b =>
          cases horder : a.compare? b with
          | none => simp [horder]
          | some order => simp [horder]

/-- The tree of a formula holds exactly if the formula does. -/
theorem holds_tree (d : Document) (f : Formula) : f.tree.holds d = true ↔ f.Holds d := by
  induction f with
  | atom path relation side => exact relates_iff d path relation side
  | and left right ihLeft ihRight =>
      rw [tree, Tree.holds, Bool.and_eq_true, ihLeft, ihRight, Holds]
  | or left right ihLeft ihRight =>
      rw [tree, Tree.holds, Bool.or_eq_true, ihLeft, ihRight, Holds]

/-! ### Queries that ask for the whole document

The limits are those of the reader.  A formula takes one pair of parentheses and one
operator for each of its nodes, so its height and its size are what they bound.
-/

/-- The query that gives the document if the formula holds on it. -/
def query (f : Formula) : String :=
  String.ofList (". where ".toList ++ f.chars)

theorem parse_query (f : Formula) (hheight : f.height ≤ Condition.maxDepth)
    (hsize : f.size ≤ Condition.maxOperators) :
    Query.parse f.query = .ok ⟨[Path.root], some f.tree⟩ := by
  refine Query.parse_whole (f.reads_chars []) f.isCondition_tree fun ls hls => ?_
  obtain ⟨hderives, hcount, hwithin⟩ := f.operand_words ls hls
  exact ⟨hderives.condition, hwithin 0 (by omega), by omega⟩

/--
**A query under a formula gives the document exactly if the formula holds.**  The formula is
written with one pair of parentheses for each of its nodes, of which there are at most 512, at
most 64 of them on any way down; everything else, fields that the document does not have and
values that have no order among it, is decided by `Holds`.
-/
theorem run_query (f : Formula) (hheight : f.height ≤ 64) (hsize : f.size ≤ 512)
    (entries : List (String × Value)) (merge : Merge) :
    ∃ d, Document.ofValue? (.object entries) = some d ∧
      (f.Holds d →
        Query.run merge f.query (.object entries) =
          .ok (.selected (Value.object entries).canonical)) ∧
      (¬f.Holds d → Query.run merge f.query (.object entries) = .ok .filtered) := by
  obtain ⟨d, hd⟩ : ∃ d, Document.ofValue? (.object entries) = some d := ⟨_, rfl⟩
  have haccepts : Query.accepts ⟨[Path.root], some f.tree⟩ d = f.tree.holds d := rfl
  have hrun : Query.run merge f.query (.object entries) =
      .ok (if f.tree.holds d then .selected (Value.object entries).canonical else .filtered) := by
    rw [Query.run, parse_query f hheight hsize]
    simp only [Query.evaluate, hd, Query.select_path (Document.get?_root hd), haccepts]
  refine ⟨d, hd, fun hholds => ?_, fun hfails => ?_⟩
  · rw [hrun, if_pos ((holds_tree d f).mpr hholds)]
  · rw [hrun, if_neg fun htree => hfails ((holds_tree d f).mp htree)]

/-- The left side has no value and the right side holds. -/
theorem run_query_or :
    Query.run .overwrite ". where ((.a == 1) or (.b == \"x\"))" (.object [("b", .string "x")]) =
      .ok (.selected (.object [("b", .string "x")])) := by
  have hrun := run_query
    (.or (.atom ⟨⟨"a", by decide, List.all_eq_true.mp (by decide)⟩, []⟩ .eq (.integer 1))
      (.atom ⟨⟨"b", by decide, List.all_eq_true.mp (by decide)⟩, []⟩ .eq
        (.text "x" (by decide))))
    (by decide) (by decide) [("b", .string "x")] .overwrite
  obtain ⟨d, hd, hholds, -⟩ := hrun
  obtain rfl := Option.some.inj hd
  exact hholds (.inr ⟨_, _, _, rfl, rfl, rfl, rfl⟩)

end Formula

end FieldQuery

/-
What can make a condition true.

`Means` reads a condition as an ordinary formula: `and` and `or` join comparisons that
have a path on their left side, and everything else is false.  `holds` does more than
that on some trees, since it reads the items of an `in` as conditions; but the trees
that are read from a text hold no conditions there.  `Grown` is the form that they have:
a list stands to the right of an operator only, and all its items are literals.  On
trees of this form the two readings agree, `holds_iff`.

That the form is never left is a matter of the grammar and not of the evaluation.  A
derivation can put a list in one place, and its items are literals because a list is
closed or refused before anything else is read.  The evaluation alone would give an `in`
a meaning that no query can reach.
-/
import FieldQuery.Proofs.Tree.Comparisons
import Mathlib

namespace FieldQuery

namespace Tree

/-! ### Comparisons

A comparison asks the document twice and orders what it finds.  Any of the three can
fail, and then the comparison is false.
-/

/-- Both sides have a value on the document, the values are ordered, and the relation accepts the
order. -/
def Compares (d : Document) (relation : Relation) (text : String) (right : Tree) : Prop :=
  ∃ a b order, d.get? text = some a ∧ right.operand? d = some b ∧ a.compare? b = some order ∧
    relation.accepts order = true

theorem relates_path_iff {d : Document} {relation : Relation} {text : String} {right : Tree} :
    relates d relation (.path text) right = true ↔ Compares d relation text right := by
  rw [relates_eq, order?]
  unfold Compares
  cases d.get? text with
  | none => simp
  | some a =>
      cases right.operand? d with
      | none => simp
      | some b => cases horder : a.compare? b <;> simp [horder]

/-- The lone `!` compares nothing. -/
theorem not_compares_not {d : Document} {text : String} {right : Tree} :
    ¬Compares d .not text right := by
  rintro ⟨a, b, order, -, -, -, haccepts⟩
  simp [Relation.accepts] at haccepts

/-- The condition as a formula over comparisons. -/
def Means (d : Document) : Tree → Prop
  | .binary .and left right => left.Means d ∧ right.Means d
  | .binary .or left right => left.Means d ∨ right.Means d
  | .binary (.compare relation) (.path text) right =>
    relation ≠ .not ∧ Compares d relation text right
  | _ => False

/-! ### The form of conditions

A list cannot stand by itself, so being grown is a property of operands, and the
derivation carries the list along as the other case.
-/

/-- Operands joined by operators.  Only to the right of an operator there can be a list, and it
holds nothing but literals. -/
inductive Grown : Tree → Prop
  | path (text : String) : Grown (.path text)
  | literal {t : Tree} (h : t.IsLiteral) : Grown t
  | binary (op : Operator) {left right : Tree} (hleft : Grown left) (hright : Grown right) :
      Grown (.binary op left right)
  | list (op : Operator) {left : Tree} {items : List Tree} (hleft : Grown left)
      (hitems : ∀ t ∈ items, t.IsLiteral) : Grown (.binary op left (.sequence items))

end Tree

namespace Condition

/-- What is derived is grown, or it is a list to the right of an operator. -/
theorem Derives.grown_or_list {part : Part} {ls : List Lexeme} {t : Tree}
    (h : Derives part ls t) :
    t.Grown ∨ part = .right ∧ ∃ items, t = .sequence items ∧ ∀ item ∈ items, item.IsLiteral := by
  induction h with
  | path _ => exact .inl (.path _)
  | literal _ ht => exact .inl (.literal (Tree.isLiteral_of_literal? ht))
  | group _ _ _ ih => exact .inl (ih.resolve_right (by simp))
  | ofOperand _ ih => exact .inl (ih.resolve_right (by simp))
  | list _ hinner _ => exact .inr ⟨rfl, _, rfl, hinner.isLiteral⟩
  | first _ _ _ ih => exact .inl (ih.resolve_right (by simp))
  | binary _ _ _ _ _ ihLeft ihRight =>
      have hleft := ihLeft.resolve_right (by simp)
      rcases ihRight with hright | ⟨-, items, rfl, hitems⟩
      · exact .inl (.binary _ hleft hright)
      · exact .inl (.list _ hleft hitems)

theorem Derives.grown {ls : List Lexeme} {t : Tree} (h : Derives .condition ls t) : t.Grown :=
  h.grown_or_list.resolve_right (by simp)

end Condition

namespace Tree

variable {d : Document}

/-! ### The two readings

They differ in what they make of an `in`.  On a grown tree its items are literals, which
are no conditions.
-/

theorem IsLiteral.isCondition_eq_false {t : Tree} (h : t.IsLiteral) : t.isCondition = false := by
  cases t with
  | bool _ | quoted _ | integer _ | float _ => rfl
  | sequence _ | path _ | filter _ | binary _ _ _ => exact absurd h id

theorem IsLiteral.holds_eq_false {t : Tree} (h : t.IsLiteral) : t.holds d = false := by
  cases t with
  | bool _ | quoted _ | integer _ | float _ => rfl
  | sequence _ | path _ | filter _ | binary _ _ _ => exact absurd h id

/-- Only what joins two operands can mean anything. -/
theorem not_means_of_isCondition {t : Tree} (h : t.isCondition = false) : ¬t.Means d := by
  cases t with
  | binary _ _ _ => simp [isCondition] at h
  | sequence _ | path _ | bool _ | quoted _ | integer _ | float _ | filter _ => exact id

/-- None of several literals is a condition that holds. -/
theorem holdsAny_of_isLiteral {items : List Tree} (h : ∀ t ∈ items, t.IsLiteral) :
    holdsAny d items = false := by
  induction items with
  | nil => rfl
  | cons t rest ih =>
      obtain ⟨ht, hrest⟩ := List.forall_mem_cons.mp h
      rw [holdsAny, ht.holds_eq_false, ih hrest]
      rfl

theorem holds_compare_iff (relation : Relation) (left right : Tree) :
    (binary (.compare relation) left right).holds d = true ↔
      (binary (.compare relation) left right).Means d := by
  rw [holds]
  cases left with
  | path text =>
      rw [relates_path_iff, Means]
      constructor
      · intro h
        refine ⟨?_, h⟩
        rintro rfl
        exact not_compares_not h
      · exact And.right
  | sequence _ | bool _ | quoted _ | integer _ | float _ | filter _ | binary _ _ _ =>
      simp [relates, Means]

theorem Grown.not_sequence {items : List Tree} : ¬Grown (.sequence items) := by
  intro h
  cases h with
  | literal h => exact h

/-- What the right side of an `in` is decides nothing. -/
theorem holds_isIn_eq_false {left right : Tree}
    (h : ∀ items, right = .sequence items → ∀ t ∈ items, t.IsLiteral) :
    (binary .isIn left right).holds d = false := by
  cases right with
  | sequence items =>
      rw [holds]
      exact holdsAny_of_isLiteral (h items rfl)
  | path _ | bool _ | quoted _ | integer _ | float _ | filter _ | binary _ _ _ => rfl

/-- On conditions of the grown form the items of a list decide nothing, and both readings agree. -/
theorem Grown.holds_iff {t : Tree} (h : t.Grown) : t.holds d = true ↔ t.Means d := by
  induction h with
  | path text => simp [holds, Means]
  | literal ht =>
      simp [ht.holds_eq_false, not_means_of_isCondition ht.isCondition_eq_false]
  | @binary op left right hleft hright ihLeft ihRight =>
      cases op with
      | and => rw [holds, Means, Bool.and_eq_true, ihLeft, ihRight]
      | or => rw [holds, Means, Bool.or_eq_true, ihLeft, ihRight]
      | isIn =>
          have hfalse : (Tree.binary .isIn left right).holds d = false := by
            refine holds_isIn_eq_false fun items heq => ?_
            rw [heq] at hright
            exact absurd hright Grown.not_sequence
          simp [hfalse, Means]
      | contains => simp [holds, Means]
      | compare relation => exact holds_compare_iff relation left right
  | @list op left items hleft hitems ih =>
      cases op with
      | and => simp [holds, Means]
      | or => simp [holds, Means, ih]
      | isIn => simp [holds, Means, holdsAny_of_isLiteral hitems]
      | contains => simp [holds, Means]
      | compare relation => exact holds_compare_iff relation left (.sequence items)

/-! ### What stands inside a tree

That an `in` is false wherever it stands is a statement about subtrees, and a subtree of
a grown tree is grown or a list of literals.
-/

/-- The first tree stands in the second, or is the second. -/
inductive Subtree : Tree → Tree → Prop
  | self (t : Tree) : Subtree t t
  | child {t child parent : Tree} (h : Subtree t child) (hchild : child ∈ parent.children) :
      Subtree t parent

/-- The root is an `in`, a `contains` or a lone `!`. -/
inductive Idle : Tree → Prop
  | isIn (left right : Tree) : Idle (.binary .isIn left right)
  | contains (left right : Tree) : Idle (.binary .contains left right)
  | not (left right : Tree) : Idle (.binary (.compare .not) left right)

/-- What can stand in a condition. -/
def Occurs (t : Tree) : Prop :=
  t.Grown ∨ ∃ items, t = .sequence items ∧ ∀ item ∈ items, item.IsLiteral

theorem Grown.children {t : Tree} (h : t.Grown) : ∀ child ∈ t.children, child.Occurs := by
  cases h with
  | path text => exact fun child hchild => absurd hchild List.not_mem_nil
  | literal ht =>
      intro child hchild
      cases t with
      | bool _ | quoted _ | integer _ | float _ => exact absurd hchild List.not_mem_nil
      | sequence _ | path _ | filter _ | binary _ _ _ => exact absurd ht id
  | binary op hleft hright =>
      exact List.forall_mem_cons.mpr ⟨.inl hleft, List.forall_mem_singleton.mpr (.inl hright)⟩
  | list op hleft hitems =>
      exact List.forall_mem_cons.mpr
        ⟨.inl hleft, List.forall_mem_singleton.mpr (.inr ⟨_, rfl, hitems⟩)⟩

theorem Occurs.children {t : Tree} (h : t.Occurs) : ∀ child ∈ t.children, child.Occurs := by
  rcases h with hgrown | ⟨items, rfl, hitems⟩
  · exact hgrown.children
  · exact fun child hchild => .inl (.literal (hitems child hchild))

theorem Occurs.subtree {t whole : Tree} (hwhole : whole.Occurs) (h : Subtree t whole) :
    t.Occurs := by
  induction h with
  | self => exact hwhole
  | child _ hchild ih => exact ih (hwhole.children _ hchild)

theorem Occurs.holds_eq_false {t : Tree} (h : t.Occurs) (hidle : t.Idle) :
    t.holds d = false := by
  have hgrown : t.Grown := by
    refine h.resolve_right ?_
    rintro ⟨items, rfl, -⟩
    cases hidle
  have hmeans : ¬t.Means d := by
    cases hidle with
    | isIn _ _ | contains _ _ => exact id
    | not left right =>
        intro hmeans
        cases left with
        | path text => exact hmeans.1 rfl
        | sequence _ | bool _ | quoted _ | integer _ | float _ | filter _ | binary _ _ _ =>
            exact hmeans
  exact Bool.eq_false_iff.mpr fun hholds => hmeans (hgrown.holds_iff.mp hholds)

end Tree

namespace Query

theorem grown_of_parse {text : String} {q : Query} (hq : parse text = .ok q) {c : Tree}
    (hc : q.condition? = some c) : c.Grown := by
  rcases exists_cut_of_parse hq with ⟨ls, hls⟩ | ⟨before, w, ls, hcut⟩
  · obtain rfl := Except.ok.inj ((parse_of_cutFree hls).symm.trans hq)
    simp at hc
  · obtain ⟨c', ⟨hderives, -⟩, rfl⟩ := (parse_eq_ok_iff hcut q).mp hq
    obtain rfl := Option.some.inj hc
    exact hderives.grown

/-- What stands in the tree of a query and has an operator at its root stands in the condition. -/
theorem exists_condition_of_subtree {q : Query} {t : Tree} (h : t.Subtree q.toTree)
    (hidle : t.Idle) : ∃ c ∈ q.condition?, t.Subtree c := by
  cases h with
  | self =>
      unfold toTree at hidle
      cases hidle
  | child h hchild =>
      rcases List.mem_append.mp hchild with hpath | hfilter
      · obtain ⟨path, -, rfl⟩ := List.mem_map.mp hpath
        cases h with
        | self => cases hidle
        | child _ hchild => exact absurd hchild List.not_mem_nil
      · obtain ⟨c, hc, rfl⟩ := List.mem_map.mp hfilter
        cases h with
        | self => cases hidle
        | child h hchild =>
            obtain rfl := List.mem_singleton.mp hchild
            exact ⟨_, Option.mem_toList.mp hc, h⟩

/--
**Only a comparison with a path on its left side makes a condition true.**  The condition of a
query that was read holds on a document just if the formula over its comparisons does, in which
only `and` and `or` combine and everything that is no comparison is false.  An `in`, a `contains`
and a lone `!` are false on every document, at any depth and whatever list stands to their right.
-/
theorem holds_iff_means {text : String} {q : Query} (hq : parse text = .ok q) (d : Document) :
    (∀ c ∈ q.condition?, (c.holds d = true ↔ c.Means d)) ∧
      ∀ t : Tree, t.Subtree q.toTree → t.Idle → t.holds d = false := by
  constructor
  · intro c hc
    exact (grown_of_parse hq hc).holds_iff
  · intro t ht hidle
    obtain ⟨c, hc, hsubtree⟩ := exists_condition_of_subtree ht hidle
    have hoccurs : t.Occurs := .subtree (.inl (grown_of_parse hq hc)) hsubtree
    exact hoccurs.holds_eq_false hidle

/-- The comparison holds, and the `in` beside it is false although its list is not empty. -/
theorem holds_iff_means_in :
    ∃ d c, Document.ofValue? (.object [("a", .integer 1)]) = some d ∧
      parse "where (.a in [1]) or (.a == 1)" = .ok ⟨[], some c⟩ ∧ c.holds d = true ∧
        Tree.holds d (.binary .isIn (.path ".a") (.sequence [.integer 1])) = false := by
  have hparse : parse "where (.a in [1]) or (.a == 1)" =
      .ok ⟨[], some (.binary .or (.binary .isIn (.path ".a") (.sequence [.integer 1]))
        (.binary (.compare .eq) (.path ".a") (.integer 1)))⟩ := by cbv
  obtain ⟨d, hd⟩ : ∃ d, Document.ofValue? (.object [("a", .integer 1)]) = some d := ⟨_, rfl⟩
  obtain ⟨hmeans, hidle⟩ := holds_iff_means hparse d
  obtain rfl := Option.some.inj hd
  refine ⟨_, _, rfl, hparse, ?_, ?_⟩
  · exact (hmeans _ rfl).mpr (.inr ⟨by decide, _, _, _, rfl, rfl, rfl, rfl⟩)
  · refine hidle _ ?_ (.isIn _ _)
    have hor : Tree.Subtree (.binary .isIn (.path ".a") (.sequence [.integer 1]))
        (.binary .or (.binary .isIn (.path ".a") (.sequence [.integer 1]))
          (.binary (.compare .eq) (.path ".a") (.integer 1))) :=
      .child (.self _) List.mem_cons_self
    exact .child (.child hor (List.mem_singleton_self _)) List.mem_cons_self

end Query

end FieldQuery

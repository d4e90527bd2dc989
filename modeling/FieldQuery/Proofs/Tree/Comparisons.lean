/-
The comparisons of a condition.

Whether a condition holds depends on the document in the comparisons only that stand in
it below `and`, `or` and the list of an `in`, and on each of these by the order of its
two sides.  So a condition cannot tell documents apart on which all of them have the
same order, `holds_congr_order`.

The converse fails, and nothing like it is claimed: a comparison may change its order
and the condition hold as before, because the relation accepts both orders or because
another comparison decides.
-/
import FieldQuery.Proofs.Tree.Legible
import FieldQuery.Query.Truth

namespace FieldQuery

namespace Tree

/-- The order of the two sides of a comparison, if the document has a value for both and they are
ordered. -/
def order? (d : Document) (left right : Tree) : Option Ordering :=
  match left with
  | .path text => (d.get? text).bind fun a => (right.operand? d).bind fun b => a.compare? b
  | _ => none

mutual

/-- The sides of every comparison that decides on a condition. -/
def comparisons : Tree → List (Tree × Tree)
  | .binary .and left right => comparisons left ++ comparisons right
  | .binary .or left right => comparisons left ++ comparisons right
  | .binary .isIn _ (.sequence items) => comparisonsAll items
  | .binary (.compare _) left right => [(left, right)]
  | _ => []

/-- The sides of every comparison that decides on one of several conditions. -/
def comparisonsAll : List Tree → List (Tree × Tree)
  | [] => []
  | t :: rest => comparisons t ++ comparisonsAll rest

end

/-- A relation is asked of the order of the two sides. -/
theorem relates_eq (d : Document) (relation : Relation) (left right : Tree) :
    relates d relation left right = ((order? d left right).map relation.accepts).getD false := by
  cases left with
  | path text =>
      rw [relates, order?]
      cases d.get? text with
      | none => rfl
      | some a => cases right.operand? d <;> rfl
  | _ => rfl

variable {d e : Document}

mutual

/-- A condition holds alike where its comparisons have the same order. -/
theorem holds_congr_order : ∀ t : Tree,
    (∀ sides ∈ t.comparisons, order? e sides.1 sides.2 = order? d sides.1 sides.2) →
      t.holds e = t.holds d
  | .binary op left right, h => by
      cases op with
      | and =>
          obtain ⟨hleft, hright⟩ := List.forall_mem_append.mp h
          unfold holds
          rw [holds_congr_order left hleft, holds_congr_order right hright]
      | or =>
          obtain ⟨hleft, hright⟩ := List.forall_mem_append.mp h
          unfold holds
          rw [holds_congr_order left hleft, holds_congr_order right hright]
      | isIn =>
          cases right with
          | sequence items =>
              unfold holds
              exact holdsAny_congr_order items h
          | _ => rfl
      | contains => rfl
      | compare relation =>
          unfold holds
          rw [relates_eq, relates_eq, h (left, right) List.mem_cons_self]
  | .sequence _, _ | .path _, _ | .bool _, _ | .quoted _, _ | .integer _, _ | .float _, _
  | .filter _, _ => rfl

theorem holdsAny_congr_order : ∀ ts : List Tree,
    (∀ sides ∈ comparisonsAll ts, order? e sides.1 sides.2 = order? d sides.1 sides.2) →
      holdsAny e ts = holdsAny d ts
  | [], _ => rfl
  | t :: rest, h => by
      obtain ⟨hfirst, hrest⟩ := List.forall_mem_append.mp h
      unfold holdsAny
      rw [holds_congr_order t hfirst, holdsAny_congr_order rest hrest]

end

mutual

/-- What is compared in a legible tree is legible. -/
theorem Legible.comparisons : ∀ {t : Tree}, t.Legible → ∀ sides ∈ t.comparisons,
    sides.1.Legible ∧ sides.2.Legible
  | .binary op left right, h, sides, hsides => by
      have hleft : left.Legible := h.children _ (by simp [children])
      have hright : right.Legible := h.children _ (by simp [children])
      cases op with
      | and | or =>
          rcases List.mem_append.mp hsides with hsides | hsides
          · exact Legible.comparisons hleft sides hsides
          · exact Legible.comparisons hright sides hsides
      | isIn =>
          cases right with
          | sequence items => exact legible_comparisonsAll hright.children sides hsides
          | _ => exact absurd hsides List.not_mem_nil
      | contains => exact absurd hsides List.not_mem_nil
      | compare relation =>
          obtain rfl := List.mem_singleton.mp hsides
          exact ⟨hleft, hright⟩
  | .sequence _, _, _, hsides | .path _, _, _, hsides | .bool _, _, _, hsides
  | .quoted _, _, _, hsides | .integer _, _, _, hsides | .float _, _, _, hsides
  | .filter _, _, _, hsides => absurd hsides List.not_mem_nil

theorem legible_comparisonsAll : ∀ {ts : List Tree}, (∀ t ∈ ts, t.Legible) →
    ∀ sides ∈ comparisonsAll ts, sides.1.Legible ∧ sides.2.Legible
  | [], _, _, hsides => absurd hsides List.not_mem_nil
  | t :: rest, h, sides, hsides => by
      obtain ⟨hfirst, hrest⟩ := List.forall_mem_cons.mp h
      rcases List.mem_append.mp hsides with hsides | hsides
      · exact Legible.comparisons hfirst sides hsides
      · exact legible_comparisonsAll hrest sides hsides

end

end Tree

end FieldQuery

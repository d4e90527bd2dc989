/-
A single comparison.

`comparing` asks for the whole document under one relation between two operands.  It is
the shortest condition without parentheses and is read as this relation,
`parse_comparing`, so with a path on its left side it gives the document exactly if both
sides have a value, the values are ordered, and the relation accepts the order,
`givesIf_comparing`.  Which order that is depends on the values; `Orders` says what a
relation accepts wherever the order is linear.

What is left open here is the right side.  An operand is any text that is read as one,
and each kind of literal adds what it is read as and how its value compares.
-/
import FieldQuery.Proofs.Formula.Flat
import FieldQuery.Proofs.KeyPath
import Mathlib

namespace FieldQuery

/-! ### What a relation accepts

A relation is asked of an order, and the order of two numbers or two texts decides it.
-/

namespace Relation

section

variable {α : Type*} [LinearOrder α]

/-- The relation in a linear order; the lone `!` holds nowhere. -/
def Orders (relation : Relation) (a b : α) : Prop :=
  match relation with
  | .lt => a < b
  | .le => a ≤ b
  | .gt => b < a
  | .ge => b ≤ a
  | .eq => a = b
  | .ne => a ≠ b
  | .not => False

theorem accepts_compare_iff (relation : Relation) (a b : α) :
    relation.accepts (compare a b) = true ↔ relation.Orders a b := by
  cases relation with
  | lt => simp [accepts, Orders, compare_lt_iff_lt]
  | le => simp [accepts, Orders, compare_gt_iff_gt]
  | gt => simp [accepts, Orders, compare_gt_iff_gt]
  | ge => simp [accepts, Orders, compare_lt_iff_lt]
  | eq | ne => simp [accepts, Orders]
  | not => simp [accepts, Orders]

end

/-- Texts are ordered as lists of characters are. -/
theorem accepts_compare_text_iff (relation : Relation) (s t : String) :
    relation.accepts (compare s t) = true ↔ relation.Orders s.toList t.toList := by
  rw [accepts_compare_iff]
  cases relation with
  | lt | gt => exact String.lt_iff_toList_lt
  | le | ge => exact String.le_iff_toList_le
  | eq => exact String.toList_inj.symm
  | ne => exact String.toList_inj.symm.not
  | not => exact Iff.rfl

end Relation

namespace Condition

/-! ### Operands -/

/-- Characters that are read into one literal are that operand. -/
theorem Single.of_reads {cs : List Char} {token : Token} {text : String} {t : Tree}
    (h : Lexeme.Reads cs [] [(token, text)]) (htoken : token.isLiteral = true)
    (ht : ∀ pos, Lexeme.literal? ⟨token, pos, text⟩ = some t) : Single (String.ofList cs) t := by
  obtain ⟨ls, last, hwords, hscan⟩ := h.scan
  obtain ⟨pos, rfl⟩ := Lexeme.exists_of_word hwords
  exact .literal hscan htoken (ht pos)

end Condition

/-- A path of keys is that operand. -/
theorem KeyPath.single (p : KeyPath) : Condition.Single p.text (.path p.text) := by
  have hne : p.keys.map Key.text ≠ [] := List.cons_ne_nil _ _
  obtain ⟨first, more, last, hscan, hfields, htext⟩ :=
    Lexeme.scan_spelled hne (fun _ => Key.isWord_of_mem) (Key.toList_pathText p.keys).symm
  have hsingle := Condition.Single.path hscan hfields
  rwa [htext] at hsingle

namespace Query

open Condition

/-! ### The query

Asking for the root under a condition makes the outcome an answer to the condition: the
document, or nothing.
-/

/-- The query that asks for the whole document if its left side stands in the relation to its
right side. -/
def comparing (left : String) (relation : Relation) (right : String) : String :=
  ". where " ++ left ++ " " ++ relation.symbol ++ " " ++ right

theorem comparing_eq (left : String) (relation : Relation) (right : String) :
    comparing left relation right = String.ofList (". where ".toList ++
      (left.toList ++ ' ' :: (relation.symbol.toList ++ ' ' :: right.toList))) := by
  rw [String.ofList_append, String.ofList_append, String.ofList_cons, String.ofList_append,
    String.ofList_cons]
  simp only [String.ofList_toList, comparing, String.append_assoc]
  rfl

/-- The text gives the whole value if this holds, and nothing if not. -/
def GivesIf (merge : Merge) (text : String) (v : Value) (p : Prop) : Prop :=
  (p → run merge text v = .ok (.selected v.canonical)) ∧ (¬p → run merge text v = .ok .filtered)

theorem GivesIf.congr {merge : Merge} {text : String} {v : Value} {p q : Prop}
    (h : GivesIf merge text v p) (hiff : p ↔ q) : GivesIf merge text v q :=
  ⟨fun hq => h.1 (hiff.mpr hq), fun hq => h.2 fun hp => hq (hiff.mp hp)⟩

variable {left right : String} {s t : Tree}

theorem parse_comparing (hleft : Single left s) (hright : Single right t) (relation : Relation) :
    parse (comparing left relation right) =
      .ok ⟨[Path.root], some (.binary (.compare relation) s t)⟩ := by
  obtain ⟨f, hf⟩ : ∃ f : Flat, f = ⟨left, s, hleft, ⟨.compare relation, right, t, .single hright⟩,
      []⟩ := ⟨_, rfl⟩
  have hchars : f.chars =
      left.toList ++ ' ' :: (relation.symbol.toList ++ ' ' :: right.toList) := by
    rw [hf]
    simp only [Flat.chars, Flat.steps, Step.chars, Operator.symbol, List.flatMap_cons,
      List.flatMap_nil, List.append_nil]
  have hquery : f.query = comparing left relation right := by
    show String.ofList (". where ".toList ++ f.chars) = _
    rw [hchars, comparing_eq]
  have hcondition : f.condition = .binary (.compare relation) s t := by
    rw [hf]
    rfl
  rw [← hquery, ← hcondition]
  exact f.parse_query (by simp [hf, Flat.steps, maxOperators])

theorem run_comparing (hleft : Single left s) (hright : Single right t) (relation : Relation)
    {entries : List (String × Value)} {d : Document}
    (hd : Document.ofValue? (.object entries) = some d) (merge : Merge) :
    run merge (comparing left relation right) (.object entries) =
      .ok (if Tree.relates d relation s t then .selected (Value.object entries).canonical
        else .filtered) := by
  have hholds : Tree.holds d (.binary (.compare relation) s t) = Tree.relates d relation s t := by
    rw [Tree.holds]
  rw [run_whole (parse_comparing hleft hright relation) hd merge, hholds]

/-- Where both sides have a value, the document is given if the values are ordered and the relation
accepts the order. -/
theorem givesIf_comparing (p : KeyPath) (hright : Single right t) (relation : Relation)
    {entries : List (String × Value)} {d : Document} {a b : Value}
    (hd : Document.ofValue? (.object entries) = some d) (ha : d.get? p.text = some a)
    (hb : t.operand? d = some b) (merge : Merge) :
    GivesIf merge (comparing p.text relation right) (.object entries)
      (∃ order, a.compare? b = some order ∧ relation.accepts order = true) := by
  have hrelates : Tree.relates d relation (.path p.text) t = true ↔
      ∃ order, a.compare? b = some order ∧ relation.accepts order = true := by
    rw [Tree.relates_path_iff]
    simp [Tree.Compares, ha, hb]
  rw [GivesIf, run_comparing p.single hright relation hd merge, ← hrelates]
  constructor
  · intro hholds
    rw [if_pos hholds]
  · intro hfails
    rw [if_neg hfails]

end Query

end FieldQuery

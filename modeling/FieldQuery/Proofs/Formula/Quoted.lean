/-
Comparisons with text literals.

A literal keeps its marks while it is read, and they go at two different times:
apostrophes when the operand gets its value, double quotation marks when two strings are
compared.  So a literal in double quotation marks stands for exactly what is between
them, and one in apostrophes for what is between them without the double quotation marks
around that.  Nothing else in a literal counts, because it ends at the first mark of its
kind.

The other side of the comparison keeps its marks.  A string of the document that has
double quotation marks around it is compared with them, and no literal in double
quotation marks can be equal to it.
-/
import FieldQuery.Proofs.Formula.Comparison
import FieldQuery.Proofs.Formula.Side

namespace FieldQuery

/-- A text literal is one operand, with its marks. -/
theorem Condition.single_quoted {mark : Char} {token : Token}
    (hkind : mark = '"' ∧ token = .string ∨ mark = '\'' ∧ token = .char) {s : String}
    (h : mark ∉ s.toList) :
    Single (String.ofList (mark :: (s.toList ++ [mark])))
      (.quoted (String.ofList (mark :: (s.toList ++ [mark])))) := by
  refine Single.of_reads (Lexeme.reads_quoted hkind h []) ?_ fun pos => ?_
  · obtain ⟨-, rfl⟩ | ⟨-, rfl⟩ := hkind <;> rfl
  · obtain ⟨-, rfl⟩ | ⟨-, rfl⟩ := hkind <;> rfl

/-- Beside a string only a string has an order, and it loses its double quotation marks. -/
theorem Value.compare?_string_iff (relation : Relation) (x : Value) (raw : String) :
    (∃ order, x.compare? (.string raw) = some order ∧ relation.accepts order = true) ↔
      ∃ v, x = .string v ∧ relation.Orders v.toList (Text.stripEach '"' raw.toList) := by
  cases x with
  | string v =>
      simp [compare?, Relation.accepts_compare_text_iff]
  | null | bool _ | integer _ | float _ | array _ | object _ => simp [compare?]

namespace Query

open Condition

variable {p : KeyPath} {entries : List (String × Value)} {d : Document} {x : Value}

/-- Text between marks is compared as what its value is without double quotation marks. -/
theorem givesIf_quoted {mark : Char} {token : Token}
    (hkind : mark = '"' ∧ token = .string ∨ mark = '\'' ∧ token = .char) {s : String}
    (h : mark ∉ s.toList) {t : List Char}
    (ht : Text.Bared '"' (Text.stripPair '\'' (mark :: (s.toList ++ [mark]))) t)
    (hd : Document.ofValue? (.object entries) = some d) (hx : d.get? p.text = some x)
    (relation : Relation) (merge : Merge) :
    GivesIf merge (comparing p.text relation (String.ofList (mark :: (s.toList ++ [mark]))))
      (.object entries) (∃ v, x = .string v ∧ relation.Orders v.toList t) := by
  have hoperand : Tree.operand? d (.quoted (String.ofList (mark :: (s.toList ++ [mark])))) =
      some (.string (String.ofList (Text.stripPair '\'' (mark :: (s.toList ++ [mark]))))) := by
    rw [Tree.operand?, String.toList_ofList]
  refine (givesIf_comparing p (single_quoted hkind h) relation hd hx hoperand merge).congr ?_
  rw [Value.compare?_string_iff, String.toList_ofList, Text.bared_iff.mp ht]

/--
**Text literals compare by what is written between their marks.**  Text without a double quotation
mark, written between two of them, is compared as it is; and text without an apostrophe, written
between two of those, is compared without one double quotation mark at its front and one at its
back, each only if it is there.  The document is given exactly if a string stands at the path and is
in the relation to that text by the order of the characters.
-/
theorem run_quoted (p : KeyPath) (relation : Relation) (s : String)
    (hd : Document.ofValue? (.object entries) = some d) (hx : d.get? p.text = some x)
    (merge : Merge) :
    ('"' ∉ s.toList →
      GivesIf merge (comparing p.text relation ("\"" ++ s ++ "\"")) (.object entries)
        (∃ v, x = .string v ∧ relation.Orders v.toList s.toList)) ∧
    ('\'' ∉ s.toList → ∃ t, Text.Bared '"' s.toList t ∧
      GivesIf merge (comparing p.text relation ("'" ++ s ++ "'")) (.object entries)
        (∃ v, x = .string v ∧ relation.Orders v.toList t)) := by
  have hquoted : ∀ mark : Char, String.ofList (mark :: (s.toList ++ [mark])) =
      String.singleton mark ++ s ++ String.singleton mark := by
    intro mark
    rw [String.ofList_cons, String.ofList_append, String.ofList_toList, String.append_assoc]
    rfl
  constructor
  · intro h
    have ht : Text.Bared '"' (Text.stripPair '\'' ('"' :: (s.toList ++ ['"']))) s.toList := by
      rw [Text.stripPair_of_ne (by decide)]
      exact Text.bared_quoted '"' s.toList
    have hgives := givesIf_quoted (.inl ⟨rfl, rfl⟩) h ht hd hx relation merge
    rwa [hquoted] at hgives
  · intro h
    obtain ⟨t, ht⟩ : ∃ t, Text.Bared '"' s.toList t := ⟨_, Text.bared_iff.mpr rfl⟩
    refine ⟨t, ht, ?_⟩
    rw [← Text.stripPair_quoted '\'' s.toList] at ht
    have hgives := givesIf_quoted (.inr ⟨rfl, rfl⟩) h ht hd hx relation merge
    rwa [hquoted] at hgives

/-- A line break and an apostrophe stand for themselves between double quotation marks, and between
apostrophes a double quotation mark alone stands for nothing. -/
theorem run_quoted_marks :
    run .overwrite ". where .a == \"it's\n\"" (.object [("a", .string "it's\n")]) =
        .ok (.selected (.object [("a", .string "it's\n")])) ∧
      run .overwrite ". where .a <= '\"'" (.object [("a", .string "\"")]) = .ok .filtered := by
  have hkey : ∀ c ∈ "a".toList, Text.isWord c = true := List.all_eq_true.mp (by decide)
  constructor
  · have hrun := @run_quoted [("a", .string "it's\n")] ⟨.ofFields _, _, rfl⟩
      (.string "it's\n") ⟨⟨"a", by decide, hkey⟩, []⟩ .eq "it's\n" rfl rfl .overwrite
    exact (hrun.1 (by decide)).1 ⟨_, rfl, rfl⟩
  · have hrun := @run_quoted [("a", .string "\"")] ⟨.ofFields _, _, rfl⟩ (.string "\"")
      ⟨⟨"a", by decide, hkey⟩, []⟩ .le "\"" rfl rfl .overwrite
    obtain ⟨t, ht, hgives⟩ := hrun.2 (by decide)
    obtain rfl : [] = t := Text.bared_iff.mp ht
    refine hgives.2 ?_
    rintro ⟨v, hv, hle⟩
    obtain rfl := Value.string.inj hv
    exact (List.nil_lt_cons _ _).not_ge hle

end Query

end FieldQuery

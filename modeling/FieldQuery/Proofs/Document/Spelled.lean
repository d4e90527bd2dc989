/-
Paths as they are spelled.

A path is a list of names, each of them behind a dot, and cutting it at its dots gives
names back that spell it again, `spelled_segments`.  Names without dots come back
themselves, `cut_spelled`; a name that holds dots comes back in pieces.

Cutting keeps the text in front of the first dot apart from the pieces behind the dots.
For a path that is nothing, since every path begins with a dot, `head_foldl_child`; this
is why the empty name makes no exception here, although it spells two dots in a row.
-/
import FieldQuery.Document.Path
import Mathlib.Data.List.Basic

namespace FieldQuery.Path

/-- Names, each of them after a dot. -/
def spelled (names : List String) : List Char := names.flatMap fun name => '.' :: name.toList

theorem spelled_cons (name : String) (rest : List String) :
    spelled (name :: rest) = '.' :: (name.toList ++ spelled rest) := rfl

/-- What is spelled is the text of the names that are each written behind a dot. -/
theorem toList_foldr_fields (names : List String) :
    ((names.map ("." ++ ·)).foldr (· ++ ·) "").toList = spelled names := by
  induction names with
  | nil => rfl
  | cons name rest ih =>
      rw [List.map_cons, List.foldr_cons, String.toList_append, ih, String.toList_append,
        spelled_cons]
      rfl

/-- Spelled names go on with a dot or end. -/
theorem head_spelled (names : List String) : ∀ c ∈ (spelled names).head?, c = '.' := by
  cases names with
  | nil => simp [spelled]
  | cons name rest => simp [spelled_cons]

/-! ### Names that are cut out again

Cutting goes through the characters one by one, so text without dots is carried along in
front of whatever is cut behind it.
-/

theorem cut_dot (rest : List Char) : cut ('.' :: rest) = ([], (cut rest).1 :: (cut rest).2) := rfl

theorem cut_of_ne {c : Char} (h : c ≠ '.') (rest : List Char) :
    cut (c :: rest) = (c :: (cut rest).1, (cut rest).2) := if_neg h

/-- Text without dots stays in front of the first dot. -/
theorem cut_append {piece : List Char} (h : '.' ∉ piece) (rest : List Char) :
    cut (piece ++ rest) = (piece ++ (cut rest).1, (cut rest).2) := by
  induction piece with
  | nil => rfl
  | cons c piece ih =>
      obtain ⟨hc, hpiece⟩ := not_or.mp (mt List.mem_cons.mpr h)
      rw [List.cons_append, cut_of_ne (Ne.symm hc), ih hpiece]
      rfl

/-- Names without dots are cut out of their path again. -/
theorem cut_spelled {names : List String} (h : ∀ name ∈ names, '.' ∉ name.toList) :
    cut (spelled names) = ([], names.map String.toList) := by
  induction names with
  | nil => rfl
  | cons name rest ih =>
      obtain ⟨hname, hrest⟩ := List.forall_mem_cons.mp h
      rw [spelled_cons, cut_dot, cut_append hname, ih hrest, List.append_nil, List.map_cons]

/-! ### Pieces that spell the path again

This direction asks nothing of the names: any text behind a dot is spelled by its
pieces.
-/

/-- Pieces behind their dots are the text that they were cut from. -/
theorem flatMap_cut (cs : List Char) : (cut cs).1 ++ (cut cs).2.flatMap ('.' :: ·) = cs := by
  induction cs with
  | nil => rfl
  | cons c rest ih =>
      by_cases hdot : c = '.'
      · rw [hdot, cut_dot, List.flatMap_cons, List.nil_append, List.cons_append, ih]
      · rw [cut_of_ne hdot, List.cons_append, ih]

/-- The pieces hold what the text does, dots apart. -/
theorem mem_of_mem_cut {cs : List Char} {c : Char}
    (h : c ∈ (cut cs).1 ∨ ∃ piece ∈ (cut cs).2, c ∈ piece) : c ∈ cs ∧ c ≠ '.' := by
  induction cs with
  | nil => simp [cut] at h
  | cons first rest ih =>
      by_cases hdot : first = '.'
      · rw [hdot, cut_dot, List.exists_mem_cons_iff] at h
        obtain ⟨hmem, hc⟩ := ih (h.resolve_left List.not_mem_nil)
        exact ⟨List.mem_cons_of_mem _ hmem, hc⟩
      · rw [cut_of_ne hdot, List.mem_cons, or_assoc] at h
        rcases h with rfl | h
        · exact ⟨List.mem_cons_self, hdot⟩
        · exact ⟨List.mem_cons_of_mem _ (ih h).1, (ih h).2⟩

/-- A path is spelled by its segments. -/
theorem spelled_segments {path : String} (h : path.toList.head? = some '.') :
    spelled (segments path) = path.toList := by
  obtain ⟨rest, hrest⟩ : ∃ rest, path.toList = '.' :: rest := by
    cases hpath : path.toList with
    | nil => simp [hpath] at h
    | cons c rest =>
        rw [hpath] at h
        exact ⟨rest, by rw [Option.some.inj h]⟩
  have hcut := flatMap_cut path.toList
  have hfront : (cut path.toList).1 = [] := by
    rw [hrest, cut_dot]
  rw [hfront, List.nil_append] at hcut
  rw [spelled, segments, List.flatMap_map]
  simpa only [String.toList_ofList] using hcut

theorem segments_ne_nil {path : String} (h : path.toList.head? = some '.') :
    segments path ≠ [] := by
  intro hnil
  have hspelled := spelled_segments h
  rw [hnil] at hspelled
  rw [← hspelled] at h
  simp [spelled] at h

/-- The segments of a path hold what the path does, dots apart. -/
theorem mem_of_mem_segments {path name : String} (h : name ∈ segments path) {c : Char}
    (hc : c ∈ name.toList) : c ∈ path.toList ∧ c ≠ '.' := by
  obtain ⟨piece, hpiece, rfl⟩ := List.mem_map.mp h
  rw [String.toList_ofList] at hc
  exact mem_of_mem_cut (.inr ⟨piece, hpiece, hc⟩)

/-! ### Going down -/

/-- Going down adds the name to what is there, which begins with the same character. -/
theorem exists_child_eq {parent : String} (h : parent.toList.head? = some '.') (name : String) :
    ∃ stem, child parent name = stem ++ name ∧ stem.toList.head? = some '.' ∧
      ∀ c ∈ stem.toList, c ∈ parent.toList ∨ c = '.' := by
  unfold child
  split
  · exact ⟨".", rfl, rfl, by simp⟩
  · refine ⟨parent ++ ".", rfl, ?_, by simp⟩
    rw [String.toList_append, List.head?_append, h]
    rfl

theorem head_child {parent : String} (h : parent.toList.head? = some '.') (name : String) :
    (child parent name).toList.head? = some '.' := by
  obtain ⟨stem, hstem, hhead, -⟩ := exists_child_eq h name
  rw [hstem, String.toList_append, List.head?_append, hhead]
  rfl

theorem head_foldl_child (names : List String) {path : String}
    (h : path.toList.head? = some '.') : (names.foldl child path).toList.head? = some '.' := by
  induction names generalizing path with
  | nil => exact h
  | cons name rest ih => exact ih (head_child h name)

end FieldQuery.Path

/-
Queries that ask for the whole document under a condition.

The path of the root and a condition behind `where` are read as this path with this
condition, if the words of the condition derive a tree within the limits
(`parse_whole`).  The path names the document itself, so such a query gives all of it or
nothing, as the condition says (`run_whole`).

This is the form in which conditions are studied elsewhere.  A condition by itself is a
query, too, but selects an empty object, and whether it holds could then only be told
from whether it filters.
-/
import FieldQuery.Proofs.Document.Lookup
import FieldQuery.Proofs.FieldPath

namespace FieldQuery

namespace Query

open Condition

/-- In front of a condition the path of the root and the word `where` are read. -/
theorem reads_whole {cs rest : List Char} {words : List (Token × String)}
    (h : Lexeme.Reads cs rest words) : Lexeme.Reads (". where ".toList ++ cs) rest
      ([(.field, ".")] ++ (.whereKeyword, "where") :: words) := by
  have hroot : Lexeme.Reads ['.'] (' ' :: ("where ".toList ++ cs ++ rest))
      [(Token.field, ".")] :=
    Lexeme.reads_field (by simp) (Text.stops_space _).not_word
  have hall := hroot.spaced.append ((Lexeme.reads_where _).append h)
  rwa [← List.append_assoc] at hall

/-- The whole document is asked for under what the words behind `where` derive. -/
theorem parse_whole {cs : List Char} {words : List (Token × String)} {t : Tree}
    (hreads : Lexeme.Reads cs [] words) (hcondition : t.isCondition = true)
    (hwords : ∀ ls : List Lexeme, ls.map Lexeme.word = words →
      Derives .condition ls t ∧ Within 0 ls ∧ operatorCount ls ≤ maxOperators) :
    parse (String.ofList (". where ".toList ++ cs)) = .ok ⟨[Path.root], some t⟩ := by
  obtain ⟨before, w, ls, hcut, hbefore, hls⟩ :=
    exists_cutAtWhere (reads_whole hreads) (by simp [Token.isGrouping])
  obtain ⟨hderives, hwithin, hcount⟩ := hwords ls hls
  have hselectors : (Phrase.group before).filterMap Reading.path? = [Path.root] := by
    obtain ⟨first, more, rfl, hfields, htext⟩ :=
      @Phrase.fields_of_words before ["."] (by simp) hbefore
    rw [Phrase.group_fields first more hfields]
    simp [Reading.path?, htext, Path.root]
  refine (parse_eq_ok_iff hcut _).mpr ⟨t, ⟨hderives, hcondition, hwithin, hcount⟩, ?_⟩
  rw [hselectors]

/-- The condition decides whether the document is given. -/
theorem run_whole {text : String} {t : Tree} (hparse : parse text = .ok ⟨[Path.root], some t⟩)
    {entries : List (String × Value)} {d : Document}
    (hd : Document.ofValue? (.object entries) = some d) (merge : Merge) :
    run merge text (.object entries) =
      .ok (if t.holds d then .selected (Value.object entries).canonical else .filtered) := by
  have haccepts : accepts ⟨[Path.root], some t⟩ d = t.holds d := rfl
  rw [run, hparse]
  simp only [evaluate, hd, select_path (Document.get?_root hd), haccepts]

end Query

end FieldQuery

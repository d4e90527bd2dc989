/-
Reading queries from a text.

Before `where` every path is a selector, parentheses and brackets are errors, and
everything else is skipped.  After it a condition extends to the end of the text.

A reading can be taken up again after an error.  It then goes on behind the phrase at
fault, or at it where the error is that the phrase cannot stand there; the operators
already read still count towards the limit.

The position of the end is the size of the text, which phrases do not tell; so it is
part of a reading, as are the operators read so far.  Everything else that a parser
remembers between two calls is in the phrases that are left.
-/
import FieldQuery.Query.Basic
import FieldQuery.Query.Condition

namespace FieldQuery

/-- A text from which queries are read. -/
structure Reading where
  /-- The phrases that have not been read. -/
  pending : List Phrase
  /-- How many operators have been read. -/
  operators : Nat
  /-- The number of bytes of the text. -/
  size : Nat

namespace Reading

/-- A text from its start. -/
def ofText (text : String) : Reading :=
  ⟨Phrase.ofText text, 0, Text.byteLength text.toList⟩

/-- Reads the condition after a `where` at this position. -/
def nextCondition (selectors : List String) (pos : Nat) (r : Reading) :
    Except ParseError Query × Reading :=
  let result := Condition.run r.size (.start r.operators) r.pending
  let query : Except ParseError Query :=
    match result.tree? with
    | .error e => .error e
    | .ok none => .error (.invalidCondition pos)
    | .ok (some tree) =>
      if tree.isCondition then .ok ⟨selectors, some tree⟩ else .error (.invalidCondition pos)
  (query, { r with pending := result.pending, operators := result.operators })

/-- Reads a query from phrases, after these selectors. -/
def nextFrom (operators size : Nat) (selectors : List String) :
    List Phrase → Except ParseError Query × Reading
  | [] => (.ok ⟨selectors, none⟩, ⟨[], operators, size⟩)
  | .path first more :: rest =>
    nextFrom operators size (selectors ++ [Phrase.pathText first more]) rest
  | .broken _ error :: rest => (.error (.scan error), ⟨rest, operators, size⟩)
  | .lexeme l :: rest =>
    if l.token = .whereKeyword then nextCondition selectors l.pos ⟨rest, operators, size⟩
    else if l.token.isGrouping then
      (.error (.unexpected l), ⟨.lexeme l :: rest, operators, size⟩)
    else nextFrom operators size selectors rest

/-- Reads the next query. -/
def next (r : Reading) : Except ParseError Query × Reading :=
  nextFrom r.operators r.size [] r.pending

end Reading

/-- The query that a text stands for. -/
def Query.parse (text : String) : Except ParseError Query := (Reading.ofText text).next.1

end FieldQuery

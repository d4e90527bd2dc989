/-
Taking lexemes one at a time.

`take` always answers, with `eof` once the lexemes are used up.  `next?` is the iterator: it
gives every item once and then stops.  Both draw from the same items, so however calls of the
two alternate each item is given once; only the iterator's own end is a state of its own,
because it may still owe one `eof` after `take` has used up the items.
-/
import FieldQuery.Query.Lexeme

namespace FieldQuery

/-- The lexemes of a text that have not been taken. -/
structure LexemeStream where
  /-- What remains; the last item is `eof` or an error. -/
  pending : List (Except ScanError Lexeme)
  /-- The number of bytes of the text. -/
  size : Nat
  /-- Whether the iterator has stopped. -/
  stopped : Bool

namespace LexemeStream

/-- The lexemes of a text. -/
def ofText (text : String) : LexemeStream :=
  ⟨Lexeme.scan text, Text.byteLength text.toList, false⟩

/-- The next item; after the last one `eof` at the end of the text. -/
def take (s : LexemeStream) : Except ScanError Lexeme × LexemeStream :=
  match s.pending with
  | [] => (.ok (Lexeme.atEnd s.size), s)
  | item :: rest => (item, { s with pending := rest })

/-- The next item of the iterator, which stops when it has left no item behind. -/
def next? (s : LexemeStream) : Option (Except ScanError Lexeme) × LexemeStream :=
  if s.stopped then (none, s)
  else
    let (item, rest) := s.take
    (some item, { rest with stopped := rest.pending.isEmpty })

end LexemeStream

end FieldQuery

/-
Scanning a text lexeme by lexeme.

A scanner looks at no more of its text than it is asked for.  `take` always answers, with `eof`
once the scanner has finished, which it has when the end or an error has been given.  `next?` is
the iterator, which gives every item and then stops.  The iterator asks `take` for its items, so
each of the two goes on where the other has left off; whether it has stopped is known to the
iterator alone.
-/
import FieldQuery.Query.Lexeme

namespace FieldQuery

/-- A text that is scanned on demand. -/
structure Scanner where
  /-- What has not been scanned. -/
  rest : List Char
  /-- The offset of what has not been scanned. -/
  pos : Nat
  /-- The number of bytes of the text. -/
  size : Nat
  /-- Whether the end or an error has been given. -/
  finished : Bool
  /-- Whether the iterator has stopped. -/
  stopped : Bool
  deriving DecidableEq, Repr

namespace Scanner

/-- A text from its start. -/
def ofText (text : String) : Scanner :=
  ⟨text.toList, 0, Text.byteLength text.toList, false, false⟩

/-- What stands behind the blanks: a lexeme, after which the scanner goes on behind it, or the end
or an error, after which there is nothing to go on with. -/
def read (s : Scanner) : Except ScanError Lexeme × Scanner :=
  match s.rest.dropWhile Text.isBlank with
  | [] => (.ok (Lexeme.atEnd (s.pos + Text.byteLength s.rest)), s)
  | first :: rest =>
    let start := s.pos + Text.byteLength (s.rest.takeWhile Text.isBlank)
    match Lexeme.munch start first rest with
    | .error e => (.error e, s)
    | .ok (token, more) =>
      (.ok ⟨token, start, String.ofList (first :: more)⟩,
        { s with
          rest := rest.drop more.length
          pos := start + Text.byteLength (first :: more) })

/-- The next item; after the end or an error the end of the text. -/
def take (s : Scanner) : Except ScanError Lexeme × Scanner :=
  if s.finished then (.ok (Lexeme.atEnd s.size), s)
  else
    match s.read with
    | (.ok l, s) => (.ok l, { s with finished := l.token == .eof })
    | (.error e, s) => (.error e, { s with finished := true })

/-- The next item of the iterator, which stops when the scanner has finished. -/
def next? (s : Scanner) : Option (Except ScanError Lexeme) × Scanner :=
  if s.stopped then (none, s)
  else
    let (item, s) := s.take
    (some item, { s with stopped := s.finished })

/-! ### Calls -/

/-- A way to ask a scanner for an item. -/
inductive Call where
  | take
  | next
  deriving DecidableEq, Repr

/-- The answer to a call; only the iterator can have none. -/
def call (s : Scanner) : Call → Option (Except ScanError Lexeme) × Scanner
  | .take =>
    let (item, s) := s.take
    (some item, s)
  | .next => s.next?

/-- The answers to calls, one after the other. -/
def answers (s : Scanner) : List Call → List (Option (Except ScanError Lexeme))
  | [] => []
  | c :: rest =>
    let (answer, s) := s.call c
    answer :: s.answers rest

end Scanner

end FieldQuery

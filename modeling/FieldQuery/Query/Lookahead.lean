/-
One lexeme of lookahead.

A lexeme that has been looked at, or taken and given back, is held until it is taken.
There is room for one: giving a lexeme back while another is held would lose the other.
An error is never held, so looking at one uses it up.

Nothing here keeps a caller from giving back what it did not take or from giving back
twice.  That the parser does neither is proved of it.
-/
import FieldQuery.Query.Scanner

namespace FieldQuery

/-- A scanner and the lexeme that is held in front of it. -/
structure Lookahead where
  scanner : Scanner
  held? : Option Lexeme
  deriving DecidableEq, Repr

namespace Lookahead

/-- A text from its start. -/
def ofText (text : String) : Lookahead := ⟨.ofText text, none⟩

/-- Takes the next item. -/
def take (b : Lookahead) : Except ScanError Lexeme × Lookahead :=
  match b.held? with
  | some l => (.ok l, { b with held? := none })
  | none =>
    let (item, scanner) := b.scanner.take
    (item, { b with scanner := scanner })

/-- Looks at the next item.  A lexeme is held from then on, and an error is gone. -/
def look (b : Lookahead) : Except ScanError Lexeme × Lookahead :=
  match b.held? with
  | some l => (.ok l, b)
  | none =>
    match b.scanner.take with
    | (.ok l, scanner) => (.ok l, ⟨scanner, some l⟩)
    | (.error e, scanner) => (.error e, ⟨scanner, none⟩)

/-- Holds a lexeme from now on, whatever is held. -/
def giveBack (b : Lookahead) (l : Lexeme) : Lookahead := { b with held? := some l }

end Lookahead

end FieldQuery

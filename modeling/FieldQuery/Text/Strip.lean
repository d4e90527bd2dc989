/-
Text without the quotation marks around it.

There are two ways, and they differ on text with a mark at one end only: `stripEach`
takes this one away and `stripPair` leaves it.  Both take one layer.
-/

namespace FieldQuery.Text

/-- The text without one `mark` at its front and then one at its back, each only if present. -/
def stripEach (mark : Char) (text : List Char) : List Char :=
  let body := if text.head? = some mark then text.tail else text
  if body.getLast? = some mark then body.dropLast else body

/-- The text without the two `mark`s around it; text without both of them stays as it is. -/
def stripPair (mark : Char) : List Char → List Char
  | [] => []
  | c :: rest => if c = mark ∧ rest.getLast? = some mark then rest.dropLast else c :: rest

end FieldQuery.Text

/-
Writing JSON text.

A layout says what stands around the parts of an array or an object: nothing in compact
text, and in pretty text a line for every part, two spaces further in than what holds
it.  Both are written by the same functions, so that a fact about all layouts is a fact
about both.

Inside strings the quotation mark, the backslash and the control characters are escaped,
and nothing else is.  An array or an object without parts is written without a line
break in either layout.
-/
import FieldQuery.Json.Basic
import FieldQuery.Numeric.Shortest
import FieldQuery.Text.Unprintable

namespace FieldQuery.Json

/-- What stands around the parts of an array or an object. -/
structure Layout where
  /-- Between a colon and the value of an entry. -/
  afterColon : List Char
  /-- Before a part, or before the closing mark, at this depth. -/
  lineBreak : Nat → List Char

/-- Nothing but what is needed. -/
def Layout.compact : Layout := ⟨[], fun _ => []⟩

/-- A line for every part, indented by two spaces for each level. -/
def Layout.pretty : Layout := ⟨[' '], fun depth => '\n' :: List.replicate (2 * depth) ' '⟩

/-- Four hexadecimal digits. -/
def hexFour (n : Nat) : List Char :=
  [Nat.digitChar (n / 0x1000 % 16), Nat.digitChar (n / 0x100 % 16),
    Nat.digitChar (n / 0x10 % 16), Nat.digitChar (n % 16)]

/-- How a character stands inside a string. -/
def escaped (c : Char) : List Char :=
  match c with
  | '"' => ['\\', '"']
  | '\\' => ['\\', '\\']
  | '\n' => ['\\', 'n']
  | '\r' => ['\\', 'r']
  | '\t' => ['\\', 't']
  | c => if Text.isControl c then '\\' :: 'u' :: hexFour c.toNat else [c]

/-- Text as a string with its quotation marks. -/
def stringText (text : String) : List Char := '"' :: text.toList.flatMap escaped ++ ['"']

/-- The text of a value that holds no other; a float that is not finite has none of its own and
is written as null. -/
def Scalar.text : Scalar → List Char
  | .null => ['n', 'u', 'l', 'l']
  | .bool true => ['t', 'r', 'u', 'e']
  | .bool false => ['f', 'a', 'l', 's', 'e']
  | .integer n => Digits.ofInt n
  | .float x => if x.isFinite then x.text.toList else ['n', 'u', 'l', 'l']
  | .string text => stringText text

/-- Parts between an opening and a closing mark, for a container at this depth. -/
def enclose (layout : Layout) (depth : Nat) (opening closing : Char) (parts : List (List Char)) :
    List Char :=
  if parts.isEmpty then [opening, closing]
  else
    opening :: layout.lineBreak (depth + 1)
      ++ List.intercalate (',' :: layout.lineBreak (depth + 1)) parts
      ++ layout.lineBreak depth ++ [closing]

mutual

/-- The text of a value at this depth. -/
def render (layout : Layout) (depth : Nat) : Json → List Char
  | .scalar s => s.text
  | .array items => enclose layout depth '[' ']' (renderItems layout (depth + 1) items)
  | .object fields =>
    enclose layout depth '\x7b' '\x7d' (renderFields layout (depth + 1) fields)

/-- The texts of the items of an array. -/
def renderItems (layout : Layout) (depth : Nat) : List Json → List (List Char)
  | [] => []
  | j :: rest => render layout depth j :: renderItems layout depth rest

/-- The texts of the entries of an object. -/
def renderFields (layout : Layout) (depth : Nat) : List (String × Json) → List (List Char)
  | [] => []
  | (key, j) :: rest =>
    (stringText key ++ ':' :: layout.afterColon ++ render layout depth j)
      :: renderFields layout depth rest

end

/-- The text of a value. -/
def text (layout : Layout) (j : Json) : String := String.ofList (render layout 0 j)

end FieldQuery.Json

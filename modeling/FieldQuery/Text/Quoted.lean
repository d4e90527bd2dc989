/-
Quoted text in messages.

The quotation mark in use and the backslash are escaped by a backslash, the usual
controls have their letters, and every other character that is not shown as it is stands
as its code point in hexadecimal.

The other of the two quotation marks is not escaped.  This is for reading by people:
nothing reads quoted text back.
-/
import FieldQuery.Text.Unprintable

namespace FieldQuery.Text

/-- The hexadecimal digits of a number, in lower case. -/
def hexDigits (n : Nat) : List Char := Nat.toDigits 16 n

/-- How a character stands between two quotation marks `mark`. -/
def escapeWithin (mark : Char) (c : Char) : List Char :=
  if c = mark ∨ c = '\\' then ['\\', c]
  else if c = '\x00' then ['\\', '0']
  else if c = '\t' then ['\\', 't']
  else if c = '\r' then ['\\', 'r']
  else if c = '\n' then ['\\', 'n']
  else if isUnprintable c then
    '\\' :: 'u' :: '{' :: hexDigits c.toNat ++ ['}']
  else [c]

/-- Text between two quotation marks. -/
def quoteWith (mark : Char) (text : List Char) : String :=
  String.ofList (mark :: text.flatMap (escapeWithin mark) ++ [mark])

/-- A character between apostrophes. -/
def quotedChar (c : Char) : String := quoteWith '\'' [c]

/-- Text between double quotation marks. -/
def quoted (text : String) : String := quoteWith '"' text.toList

end FieldQuery.Text

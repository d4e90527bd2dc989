/-
Why a text is not a query.

Every error has a position and a message.  The position is an offset in bytes and the
message names it; what else a message shows of the text is quoted with its escapes.
-/
import FieldQuery.Query.Lexeme

namespace FieldQuery

/-- Why a text is not a query. -/
inductive ParseError where
  /-- The text cannot be cut into lexemes. -/
  | scan (error : ScanError)
  /-- The lexeme cannot stand where it stands. -/
  | unexpected (l : Lexeme)
  /-- A number literal that stands for no number. -/
  | badNumber (text : String) (pos : Nat)
  /-- The operator lacks an operand. -/
  | incomplete (pos : Nat)
  /-- The text ends inside parentheses. -/
  | unclosedParen (pos : Nat)
  /-- Too many parentheses inside each other, or too many operators. -/
  | tooDeep (pos : Nat)
  /-- What follows `where` is not a condition. -/
  | invalidCondition (pos : Nat)
  deriving DecidableEq, Repr

namespace ParseError

/-- What is said to the user. -/
def message : ParseError → String
  | .scan error => error.message
  | .unexpected l =>
    "unexpected token " ++ l.token.description ++ " " ++ Text.quoted l.text ++ " at position "
      ++ toString l.pos
  | .badNumber text pos =>
    "bad number syntax: " ++ Text.quoted text ++ " at position " ++ toString pos
  | .incomplete pos => "incomplete binary expression at position " ++ toString pos
  | .unclosedParen pos => "missing ')' before end of input at position " ++ toString pos
  | .tooDeep pos => "condition nested too deeply at position " ++ toString pos
  | .invalidCondition pos =>
    "unexpected condition at position " ++ toString pos
      ++ ": expected a comparison, 'and', 'or', 'in' or 'contains' expression"

/-- Where the fault stands. -/
def pos : ParseError → Nat
  | .scan error => error.pos
  | .unexpected l => l.pos
  | .badNumber _ pos => pos
  | .incomplete pos => pos
  | .unclosedParen pos => pos
  | .tooDeep pos => pos
  | .invalidCondition pos => pos

end ParseError

end FieldQuery

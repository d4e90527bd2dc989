/-
Tokens: the kinds of lexemes.

A token says what a lexeme is and not what it holds; its text and its position are the
lexeme's.  Operators are the exception, because a condition needs to know which operator
it meets and nothing else of the lexeme.
-/
import FieldQuery.Query.Relation

namespace FieldQuery

/-- What joins two operands of a condition. -/
inductive Operator where
  | and
  | or
  | isIn
  | contains
  | compare (relation : Relation)
  deriving DecidableEq, Repr

/-- How an operator is written. -/
def Operator.symbol : Operator → String
  | .and => "and"
  | .or => "or"
  | .isIn => "in"
  | .contains => "contains"
  | .compare relation => relation.symbol

/-- The kind of a lexeme. -/
inductive Token where
  /-- The end of the query. -/
  | eof
  /-- A dot and the name after it, which may be empty. -/
  | field
  /-- A word that is no keyword. -/
  | identifier
  /-- The words `true` and `false`. -/
  | bool
  /-- Text between apostrophes. -/
  | char
  /-- Text between double quotation marks. -/
  | string
  | number
  | leftParen
  | rightParen
  | leftBracket
  | rightBracket
  | comma
  | whereKeyword
  | operator (op : Operator)
  deriving DecidableEq, Repr

namespace Token

/-- How messages name the kind. -/
def description : Token → String
  | .eof => "end of input"
  | .field => "field"
  | .identifier => "identifier"
  | .bool => "boolean"
  | .char => "character"
  | .string => "string"
  | .number => "number"
  | .leftParen => "'('"
  | .rightParen => "')'"
  | .leftBracket => "'['"
  | .rightBracket => "']'"
  | .comma => "','"
  | .whereKeyword => "'where'"
  | .operator op => "'" ++ op.symbol ++ "'"

/-- Whether a lexeme of this kind stands for a value. -/
def isLiteral : Token → Bool
  | .bool | .char | .string | .number => true
  | _ => false

/-- Whether the kind is a word of the language. -/
def isKeyword : Token → Bool
  | .whereKeyword | .operator .and | .operator .or | .operator .isIn
  | .operator .contains => true
  | _ => false

/-- Whether the kind is a parenthesis or a bracket. -/
def isGrouping : Token → Bool
  | .leftParen | .rightParen | .leftBracket | .rightBracket => true
  | _ => false

/-- The relation that the kind stands for. -/
def relation? : Token → Option Relation
  | .operator (.compare relation) => some relation
  | _ => none

/-- The kind of a word. -/
def ofWord (word : List Char) : Token :=
  match String.ofList word with
  | "where" => .whereKeyword
  | "and" => .operator .and
  | "or" => .operator .or
  | "in" => .operator .isIn
  | "contains" => .operator .contains
  | "true" | "false" => .bool
  | _ => .identifier

end Token

end FieldQuery

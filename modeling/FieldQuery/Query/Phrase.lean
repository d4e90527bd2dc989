/-
Phrases.

Adjacent field lexemes form one path, and every other lexeme stands for itself.  Where
the text cannot be cut any further the last phrase is the error, together with the run
of fields that it cuts short.

A run is found by going on until something else is met, so a path is known only once the
lexeme behind it is.  If that is an error there is no path, and the fields are lost with
it; this is why a broken phrase carries them.

Phrases are what the limits and the recursions of reading count.  They are made from the
end of the text to its start, so that a field joins the run it stands in front of.
-/
import FieldQuery.Query.Lexeme

namespace FieldQuery

/-- One or more lexemes that are read as a unit. -/
inductive Phrase where
  /-- A maximal run of field lexemes. -/
  | path (first : Lexeme) (more : List Lexeme)
  /-- A lexeme that is neither a field nor the end. -/
  | lexeme (l : Lexeme)
  /-- A run of field lexemes, perhaps empty, and the error that follows it. -/
  | broken (fields : List Lexeme) (error : ScanError)
  deriving DecidableEq, Repr

namespace Phrase

/-- Puts a field lexeme in front of phrases. -/
def consField (field : Lexeme) : List Phrase → List Phrase
  | .path first more :: rest => .path field (first :: more) :: rest
  | .broken fields error :: rest => .broken (field :: fields) error :: rest
  | phrases => .path field [] :: phrases

/-- The phrases of a list of lexemes; the end is no phrase. -/
def ofLexemes : List (Except ScanError Lexeme) → List Phrase
  | [] => []
  | .error e :: _ => [.broken [] e]
  | .ok l :: rest =>
    match l.token with
    | .eof => []
    | .field => consField l (ofLexemes rest)
    | _ => .lexeme l :: ofLexemes rest

/-- The phrases of a text. -/
def ofText (text : String) : List Phrase := ofLexemes (Lexeme.scan text)

/-- The text of a path. -/
def pathText (first : Lexeme) (more : List Lexeme) : String :=
  (first :: more).foldr (fun l text => l.text ++ text) ""

/-- How many operators the phrase holds. -/
def operatorCount : Phrase → Nat
  | .lexeme ⟨.operator _, _, _⟩ => 1
  | _ => 0

end Phrase

end FieldQuery

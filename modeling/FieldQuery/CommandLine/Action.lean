/-
What the commands do, apart from reading arguments and printing.

A document is given as JSON text, or not at all.  It is read before the query, so where
both are faulty the document gives the error.  A query that is only to be checked needs
no document, and none is asked for.

A failure is data here and becomes a message only at the end.
-/
import FieldQuery.Run

namespace FieldQuery.CommandLine

/-- Why a command fails. -/
inductive Failure where
  /-- The query cannot be read. -/
  | parse (error : ParseError)
  /-- The query cannot be run. -/
  | run (error : RunError)
  /-- The document is not JSON text. -/
  | json
  /-- Standard input is not text. -/
  | io
  /-- No document is given. -/
  | noInput
  deriving DecidableEq, Repr

namespace Failure

/-- What is said to the user. -/
def message : Failure → String
  | .parse error => "Parse error: " ++ error.message
  | .run error => "Query error: " ++ error.message
  | .json => "Invalid JSON: the text does not stand for a value"
  | .io => "IO error: the input is not valid UTF-8"
  | .noInput => "No input provided. Use --input or pipe JSON to stdin."

end Failure

/-- What `check` finds. -/
inductive CheckResult where
  /-- The query can be read; nothing more was asked for. -/
  | syntaxValid
  | outcome (outcome : Outcome)

/-- The value that a document stands for. -/
def document (input? : Option String) : Except Failure Value :=
  match input? with
  | none => .error .noInput
  | some text =>
    match Value.parse? text with
    | none => .error .json
    | some v => .ok v

/-- Runs a query on a document, or only reads the query. -/
def check (query : String) (input? : Option String) (syntaxOnly : Bool) (merge : Merge) :
    Except Failure CheckResult :=
  if syntaxOnly then
    match Query.parse query with
    | .error e => .error (.parse e)
    | .ok _ => .ok .syntaxValid
  else
    match document input? with
    | .error e => .error e
    | .ok v =>
      match Query.run merge query v with
      | .error e => .error (.run e)
      | .ok outcome => .ok (.outcome outcome)

/-- The printed tree of a query. -/
def ast (query : String) : Except Failure String :=
  match Query.parse query with
  | .error e => .error (.parse e)
  | .ok q => .ok q.toTree.print

/-- Every path of a document in ascending order. -/
def paths (input? : Option String) : Except Failure (List String) :=
  match document input? with
  | .error e => .error e
  | .ok v =>
    match Document.ofValue? v with
    | none => .error (.run .notObject)
    | some d => .ok d.paths

end FieldQuery.CommandLine

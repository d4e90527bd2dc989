/-
The program as a function of its arguments and its standard input.

Arguments that are no use of the program end it with code 2, a failing command with code
1, and everything else with code 0.  A failing command prints nothing but its message.

Standard input is a value here, and `none` where it is a terminal.  What does input and
output is `Main`, which decides nothing.
-/
import FieldQuery.CommandLine.Action
import FieldQuery.CommandLine.Command
import FieldQuery.CommandLine.Reference

namespace FieldQuery.CommandLine

/-- How the program ends. -/
structure Answer where
  code : Nat
  output : String
  errors : String
  deriving DecidableEq, Repr

namespace Answer

/-- The answer to arguments that are no use of the program. -/
def usage : Answer :=
  ⟨2, "", "usage: fieldq [-v] check <query> [-i <json>] [-p] [--syntax-only] [--merge <how>]\n"
    ++ "       fieldq [-v] ast <query>\n"
    ++ "       fieldq [-v] paths [-i <json>]\n"
    ++ "       fieldq [-v] syntax\n"⟩

/-- Prints what a command gives, or the message of its failure. -/
def ofResult (result : Except Failure String) : Answer :=
  match result with
  | .ok output => ⟨0, output, ""⟩
  | .error e => ⟨1, "", e.message ++ "\n"⟩

end Answer

/-- What `check` prints. -/
def CheckResult.output (pretty : Bool) : CheckResult → String
  | .syntaxValid => "Syntax is valid\n"
  | .outcome .filtered => ""
  | .outcome (.selected v) => v.text (if pretty then .pretty else .compact) ++ "\n"

namespace Command

/-- The document of a command: its own, or else what standard input holds, if the program has one.
Bytes that are not text are a failure. -/
def documentText (own? : Option String) (stdin? : Option ByteArray) :
    Except Failure (Option String) :=
  match own?, stdin? with
  | some text, _ => .ok (some text)
  | none, none => .ok none
  | none, some bytes =>
    match String.fromUTF8? bytes with
    | some text => .ok (some text)
    | none => .error .io

/-- What a command prints. -/
def output (stdin? : Option ByteArray) : Command → Except Failure String
  | .check query own? pretty syntaxOnly merge =>
    if syntaxOnly then (CommandLine.check query none true merge).map (·.output pretty)
    else
      (documentText own? stdin?).bind fun text? =>
        (CommandLine.check query text? false merge).map (·.output pretty)
  | .ast query => CommandLine.ast query
  | .paths own? =>
    (documentText own? stdin?).bind fun text? =>
      (CommandLine.paths text?).map fun paths => String.join (paths.map (· ++ "\n"))
  | .reference => .ok CommandLine.reference
  | .version => .ok "fieldq 0.1.0\n"

end Command

/-- How the program ends when it is started with these arguments; standard input is given by its
bytes, unless it is a terminal. -/
def run (arguments : List String) (stdin? : Option ByteArray) : Answer :=
  match Command.ofArguments? arguments with
  | none => .usage
  | some command => .ofResult (command.output stdin?)

end FieldQuery.CommandLine

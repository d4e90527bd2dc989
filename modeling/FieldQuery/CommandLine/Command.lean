/-
The commands of the command line.

Reading the arguments gives a command or nothing; in the second case the arguments are
not a use of the program.

Options stand before or behind the name of a command and are different ones there: what
stands before it is read by `programRules` up to the first operand, which is the name,
and the rest by the rules of the command.
-/
import FieldQuery.CommandLine.Arguments
import FieldQuery.Selection

namespace FieldQuery.CommandLine

/-- What the user asks for. -/
inductive Command where
  /-- Runs a query, or only reads it. -/
  | check (query : String) (input? : Option String) (pretty syntaxOnly : Bool) (merge : Merge)
  /-- Prints the tree of a query. -/
  | ast (query : String)
  /-- Lists the paths of a document. -/
  | paths (input? : Option String)
  /-- Prints the syntax reference. -/
  | reference
  | version

namespace Command

/-! ### Options -/

/-- Asks for more messages; every command takes it. -/
def verboseRule : OptionRule := ⟨some 'v', "verbose", .flag⟩

/-- The options before the name of a command. -/
def programRules : List OptionRule := [verboseRule, ⟨some 'V', "version", .final⟩]

/-- The document as an argument. -/
def inputRule : OptionRule := ⟨some 'i', "input", .value⟩

/-- The options of `check`. -/
def checkRules : List OptionRule :=
  [verboseRule, inputRule, ⟨some 'p', "pretty", .flag⟩, ⟨none, "syntax-only", .flag⟩,
    ⟨none, "merge", .value⟩]

/-- The merge that a word names. -/
def merge? : String → Option Merge
  | "overwrite" => some .overwrite
  | "deep" => some .deep
  | _ => none

/-! ### Commands -/

/-- The command `check` with these options and operands. -/
def check? (given : Given) : List String → Option Command
  | [query] =>
    ((given.lookup "merge").elim (some .overwrite) merge?).map
      (check query (given.lookup "input") (given.lookup "pretty").isSome
        (given.lookup "syntax-only").isSome)
  | _ => none

/-- The command with this name and these arguments. -/
def named? (name : String) (arguments : List String) : Option Command :=
  match name with
  | "check" =>
    match readFrom checkRules false [] [] arguments with
    | some (.all given operands) => check? given operands
    | _ => none
  | "ast" =>
    match readFrom [verboseRule] false [] [] arguments with
    | some (.all _ [query]) => some (ast query)
    | _ => none
  | "paths" =>
    match readFrom [verboseRule, inputRule] false [] [] arguments with
    | some (.all given []) => some (paths (given.lookup "input"))
    | _ => none
  | "syntax" =>
    match readFrom [verboseRule] false [] [] arguments with
    | some (.all _ []) => some reference
    | _ => none
  | _ => none

/-- The command that arguments stand for. -/
def ofArguments? (arguments : List String) : Option Command :=
  match readFrom programRules true [] [] arguments with
  | some (.final _) => some version
  | some (.all _ (name :: rest)) => named? name rest
  | _ => none

/-- Whether the command takes its document from standard input. -/
def readsStandardInput : Command → Bool
  | .check _ none _ syntaxOnly _ => !syntaxOnly
  | .paths none => true
  | _ => false

end Command

end FieldQuery.CommandLine

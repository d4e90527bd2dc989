/-
Reading command line arguments.

An argument that begins with a hyphen and is more than a hyphen holds options: after one hyphen
a cluster of letters, after two the name of an option.  An option that takes a value finds it
behind an equals sign, behind its letter, or in the next argument, which then must not begin
with a hyphen.  After `--` everything is an operand.  No option can be given twice.

A final option, such as the one that asks for the version, ends the reading where it stands, so
that nothing behind it can be an error.
-/

namespace FieldQuery.CommandLine

/-- What an option does. -/
inductive OptionKind where
  | flag
  /-- Takes a value. -/
  | value
  /-- Ends the reading. -/
  | final
  deriving DecidableEq, Repr

/-- An option that a command knows. -/
structure OptionRule where
  letter? : Option Char
  name : String
  kind : OptionKind
  deriving DecidableEq, Repr

/-- An option with the value that is attached to it. -/
structure Use where
  rule : OptionRule
  attached? : Option String

/-- The options that have been given, with their values; a flag has an empty one. -/
abbrev Given := List (String × String)

/-- What reading some arguments comes to. -/
inductive Arguments where
  /-- A final option. -/
  | final (name : String)
  | all (given : Given) (operands : List String)

/-! ### The options of one argument -/

/-- Whether an argument holds options. -/
def holdsOptions (argument : String) : Bool :=
  match argument.toList with
  | '-' :: _ :: _ => true
  | _ => false

/-- The uses that a cluster of letters stands for. -/
def letterUses (rules : List OptionRule) : List Char → Option (List Use)
  | [] => some []
  | c :: rest =>
    match rules.find? (·.letter? == some c) with
    | none => none
    | some rule =>
      match rule.kind, rest with
      | .flag, _ => (letterUses rules rest).map (⟨rule, none⟩ :: ·)
      | .final, _ => some [⟨rule, none⟩]
      | .value, [] => some [⟨rule, none⟩]
      | .value, '=' :: value => some [⟨rule, some (String.ofList value)⟩]
      | .value, value => some [⟨rule, some (String.ofList value)⟩]

/-- The use of an option by its name, with the value behind an equals sign. -/
def nameUse (rules : List OptionRule) (text : List Char) : Option Use :=
  match rules.find? (·.name.toList == text.takeWhile (· != '=')) with
  | none => none
  | some rule =>
    match rule.kind, text.dropWhile (· != '=') with
    | _, [] => some ⟨rule, none⟩
    | .value, _ :: value => some ⟨rule, some (String.ofList value)⟩
    | _, _ => none

/-- The uses that an argument stands for. -/
def usesOf (rules : List OptionRule) (argument : String) : Option (List Use) :=
  match argument.toList with
  | '-' :: '-' :: text => (nameUse rules text).map ([·])
  | '-' :: letters => letterUses rules letters
  | _ => none

/-! ### All arguments -/

/-- What uses of options come to. -/
inductive Recorded where
  | final (name : String)
  /-- The options given so far, and the name of one whose value is the next argument. -/
  | given (given : Given) (awaiting? : Option String)

/-- Adds uses to the options that have been given, none of them a second time. -/
def record (given : Given) : List Use → Option Recorded
  | [] => some (.given given none)
  | use :: rest =>
    if use.rule.kind = .final then some (.final use.rule.name)
    else if given.any (·.1 == use.rule.name) then none
    else
      match use.rule.kind, use.attached? with
      | .value, none => some (.given given (some use.rule.name))
      | _, attached? => record (given ++ [(use.rule.name, attached?.getD "")]) rest

/-- Reads arguments after those that gave these options and operands.  A command that is followed
by another one (`nested`) ends at its first operand, which with everything behind it belongs to
the other. -/
def readFrom (rules : List OptionRule) (nested : Bool) (given : Given) (operands : List String) :
    List String → Option Arguments
  | [] => some (.all given operands)
  | argument :: rest =>
    if argument = "--" then
      if nested then none else some (.all given (operands ++ rest))
    else if holdsOptions argument then
      match (usesOf rules argument).bind (record given) with
      | none => none
      | some (.final name) => some (.final name)
      | some (.given given none) => readFrom rules nested given operands rest
      | some (.given given (some name)) =>
        match rest with
        | [] => none
        | value :: rest =>
          if holdsOptions value then none
          else readFrom rules nested (given ++ [(name, value)]) operands rest
    else if nested then some (.all given (argument :: rest))
    else readFrom rules nested given (operands ++ [argument]) rest

end FieldQuery.CommandLine

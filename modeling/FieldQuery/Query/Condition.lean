/-
Reading a condition.

A condition is read from left to right without precedence: an operator takes all that has been
read so far as its left operand, and the next operand completes it.  Only parentheses group, and
a group that holds nothing counts as not written.  A bracketed list of literals can stand only
to the right of an operator.

The reader is a stack machine.  Its state holds the expression of the innermost open group and,
for every open parenthesis, the expression around it; each phrase makes one step.  Two limits
keep trees small: at most `maxDepth` parentheses are open at a time, and a query has at most
`maxOperators` operators.
-/
import FieldQuery.Query.Literal
import FieldQuery.Query.ParseError
import FieldQuery.Query.Phrase

namespace FieldQuery

namespace Condition

/-- The most parentheses that can be open at a time. -/
def maxDepth : Nat := 64

/-- The most operators of a query. -/
def maxOperators : Nat := 512

/-- An expression that is being read. -/
inductive Progress where
  | empty
  | complete (tree : Tree)
  /-- An operator at this position, its left operand if it has one, and no right operand yet. -/
  | awaiting (op : Operator) (left? : Option Tree) (pos : Nat)

/-- An open parenthesis and the expression around it. -/
structure Group where
  opening : Lexeme
  outer : Progress

/-- What the reader knows after some phrases. -/
structure State where
  /-- The open groups, innermost first. -/
  groups : List Group
  /-- The expression of the innermost group. -/
  progress : Progress
  /-- The literals of the list that is being read, inside brackets. -/
  list? : Option (List Tree)
  /-- How many operators have been read. -/
  operators : Nat

/-- Why a phrase makes no step, and whether it stays to be read again. -/
inductive Refusal where
  | keeping (error : ParseError)
  | dropping (error : ParseError)

namespace Progress

/-- Places an operand that begins at the lexeme `first`. -/
def place (p : Progress) (operand : Tree) (first : Lexeme) : Except ParseError Progress :=
  match p with
  | .empty => .ok (.complete operand)
  | .complete _ => .error (.unexpected first)
  | .awaiting op (some left) _ => .ok (.complete (.binary op left operand))
  | .awaiting _ none pos => .error (.incomplete pos)

/-- The expression when nothing more follows, if anything has been read. -/
def result : Progress → Except ParseError (Option Tree)
  | .empty => .ok none
  | .complete tree => .ok (some tree)
  | .awaiting _ _ pos => .error (.incomplete pos)

end Progress

namespace State

/-- The state before the first phrase, when this many operators have been read. -/
def start (operators : Nat) : State := ⟨[], .empty, none, operators⟩

/-- Places an operand in the innermost group. -/
def place (s : State) (operand : Tree) (first : Lexeme) : Except Refusal State :=
  match s.progress.place operand first with
  | .ok progress => .ok { s with progress := progress }
  | .error e => .error (.dropping e)

/-- Reads an operator. -/
def stepOperator (s : State) (op : Operator) (pos : Nat) : Except Refusal State :=
  if maxOperators ≤ s.operators then .error (.keeping (.tooDeep pos))
  else
    match s.progress with
    | .empty => .ok { s with progress := .awaiting op none pos, operators := s.operators + 1 }
    | .complete tree =>
      .ok { s with progress := .awaiting op (some tree) pos, operators := s.operators + 1 }
    | .awaiting _ _ earlier => .error (.dropping (.incomplete earlier))

/-- Reads an opening parenthesis. -/
def openGroup (s : State) (l : Lexeme) : Except Refusal State :=
  if maxDepth ≤ s.groups.length then .error (.keeping (.tooDeep l.pos))
  else .ok { s with groups := ⟨l, s.progress⟩ :: s.groups, progress := .empty }

/-- Reads a closing parenthesis. -/
def closeGroup (s : State) (l : Lexeme) : Except Refusal State :=
  match s.groups with
  | [] => .error (.keeping (.unexpected l))
  | group :: groups =>
    match s.progress.result with
    | .error e => .error (.dropping e)
    | .ok none => .ok { s with groups := groups, progress := group.outer }
    | .ok (some tree) =>
      { s with groups := groups, progress := group.outer : State }.place tree group.opening

/-- Reads a literal where an operand can stand. -/
def stepLiteral (s : State) (l : Lexeme) : Except Refusal State :=
  match l.literal? with
  | some literal => s.place literal l
  | none => .error (.dropping (.badNumber l.text l.pos))

/-- Reads an opening bracket. -/
def openList (s : State) (l : Lexeme) : Except Refusal State :=
  match s.progress with
  | .awaiting .. => .ok { s with list? := some [] }
  | _ => .error (.keeping (.unexpected l))

/-- Reads a lexeme outside brackets. -/
def stepLexeme (s : State) (l : Lexeme) : Except Refusal State :=
  match l.token with
  | .operator op => s.stepOperator op l.pos
  | .leftParen => s.openGroup l
  | .rightParen => s.closeGroup l
  | .leftBracket => s.openList l
  | .bool | .char | .string | .number => s.stepLiteral l
  | _ => .error (.keeping (.unexpected l))

/-- Reads a lexeme inside brackets, after these literals. -/
def stepList (s : State) (literals : List Tree) (l : Lexeme) : Except Refusal State :=
  match l.token with
  | .comma => .ok s
  | .rightBracket => { s with list? := none }.place (.sequence literals) l
  | .bool | .char | .string | .number =>
    match l.literal? with
    | some literal => .ok { s with list? := some (literals ++ [literal]) }
    | none => .error (.dropping (.badNumber l.text l.pos))
  | _ => .error (.keeping (.unexpected l))

/-- Reads a phrase. -/
def step (s : State) (p : Phrase) : Except Refusal State :=
  match s.list?, p with
  | none, .path first more => s.place (.path (Phrase.pathText first more)) first
  | none, .lexeme l => s.stepLexeme l
  | some _, .path first _ => .error (.keeping (.unexpected first))
  | some _, .broken (first :: _) _ => .error (.keeping (.unexpected first))
  | some literals, .lexeme l => s.stepList literals l
  | _, .broken _ error => .error (.dropping (.scan error))

/-- The condition when the text, of `size` bytes, ends here. -/
def result (s : State) (size : Nat) : Except ParseError (Option Tree) :=
  match s.list? with
  | some _ => .error (.unexpected (Lexeme.atEnd size))
  | none =>
    match s.groups with
    | [] => s.progress.result
    | _ :: _ => .error (.unclosedParen size)

end State

/-! ### A whole condition -/

/-- A condition or an error, with what remains to be read. -/
structure Result where
  tree? : Except ParseError (Option Tree)
  /-- The phrases that have not been read. -/
  pending : List Phrase
  /-- How many operators have been read, those of earlier conditions included. -/
  operators : Nat

/-- Reads phrases up to the end of the text or the first error. -/
def run (size : Nat) (s : State) : List Phrase → Result
  | [] => ⟨s.result size, [], s.operators⟩
  | p :: rest =>
    match s.step p with
    | .ok s' => run size s' rest
    | .error (.keeping e) => ⟨.error e, p :: rest, s.operators⟩
    | .error (.dropping e) => ⟨.error e, rest, s.operators + p.operatorCount⟩

end Condition

end FieldQuery

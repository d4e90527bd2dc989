/-
Reading queries lexeme by lexeme.

A parser goes from point to point.  At each point it demands something of its lexemes: to take the
next one, to look at it, or to give one back; and where it goes on depends on the lexeme.  Before
it takes a lexeme that it may have to leave in place it looks at it.  Only the end of a path is
found by taking one lexeme too many, which is then given back.

What a phrase makes of a condition is said by `Condition.State.step`: a refusal that keeps the
phrase is met while the lexeme is looked at, and everything else once it is taken.  Where scanning
fails the call ends.  Between two calls a parser is idle, and the next call goes on from there with
whatever lexemes are left.
-/
import FieldQuery.Query.Condition
import FieldQuery.Query.Lookahead

namespace FieldQuery

namespace Parser

/-- A query that is being read. -/
structure Draft where
  /-- The parts that have been read. -/
  parts : List Tree
  /-- How many operators have been read, those of earlier calls included. -/
  operators : Nat

/-- A condition that is being read. -/
structure Clause where
  /-- The parts of the query before its condition. -/
  parts : List Tree
  /-- Where the word `where` stands. -/
  pos : Nat
  state : Condition.State

/-- What a path is read for. -/
inductive Site where
  | selector (draft : Draft)
  /-- An operand of a condition, with the first lexeme of the path. -/
  | operand (clause : Clause) (first : Lexeme)

/-- Where a parser stands. -/
inductive Point where
  /-- Between two calls, with the answer of the last one. -/
  | idle (operators : Nat) (answer? : Option (Except ParseError Tree))
  /-- In front of a part of a query. -/
  | part (draft : Draft)
  /-- In front of a lexeme that is skipped. -/
  | stray (draft : Draft)
  /-- In front of the word `where`. -/
  | filter (draft : Draft)
  /-- In a path, behind this text. -/
  | path (site : Site) (text : String)
  /-- Behind a path, when the lexeme after it has been taken. -/
  | pathEnd (site : Site) (text : String) (next : Lexeme)
  /-- In front of a phrase of a condition. -/
  | phrase (clause : Clause)
  /-- In front of a literal of a condition. -/
  | literal (clause : Clause)
  /-- In front of an operator or a mark of a condition. -/
  | mark (clause : Clause) (l : Lexeme)

/-- What a parser demands of its lexemes, and where it goes on. -/
inductive Demand where
  | nothing (next : Point)
  | take (next : Lexeme → Point)
  | look (next : Lexeme → Point)
  | giveBack (l : Lexeme) (next : Point)

namespace Clause

/-- Where the parser goes on when a phrase with this many operators has been read. -/
def proceed (c : Clause) (count : Nat) : Except Condition.Refusal Condition.State → Point
  | .ok state => .phrase { c with state := state }
  | .error (.keeping e) => .idle c.state.operators (some (.error e))
  | .error (.dropping e) => .idle (c.state.operators + count) (some (.error e))

/-- Where the parser goes on when this lexeme of the condition has been taken. -/
def afterTake (c : Clause) (l : Lexeme) : Point :=
  c.proceed (Phrase.lexeme l).operatorCount (c.state.step (.lexeme l))

/-- Where the parser goes on at the end of a text of this size. -/
def finish (c : Clause) (size : Nat) : Point :=
  match c.state.result size with
  | .error e => .idle c.state.operators (some (.error e))
  | .ok none => .idle c.state.operators (some (.error (.invalidCondition c.pos)))
  | .ok (some tree) =>
    if tree.isCondition then .part ⟨c.parts ++ [.filter tree], c.state.operators⟩
    else .idle c.state.operators (some (.error (.invalidCondition c.pos)))

/-- Where the parser goes on in front of this lexeme, which is taken unless it has to be kept. -/
def unlessKept (c : Clause) (l : Lexeme) : Point :=
  match c.state.step (.lexeme l) with
  | .error (.keeping e) => .idle c.state.operators (some (.error e))
  | _ => .mark c l

/-- Where the parser goes on when it has looked at this lexeme of the condition. -/
def afterLook (c : Clause) (l : Lexeme) : Point :=
  match c.state.list?, l.token with
  | _, .eof => c.finish l.pos
  | none, .field => .path (.operand c l) ""
  | _, .bool | _, .char | _, .string | _, .number => .literal c
  | _, _ => c.unlessKept l

end Clause

/-- How many operators have been read. -/
def Site.operators : Site → Nat
  | .selector d => d.operators
  | .operand c _ => c.state.operators

/-- Where the parser goes on when a path with this text has been read. -/
def Site.proceed (text : String) : Site → Point
  | .selector d => .part { d with parts := d.parts ++ [.path text] }
  | .operand c first => c.proceed 0 (c.state.place (.path text) first)

/-- Where the parser goes on when it has looked at the first lexeme of a part. -/
def Draft.afterLook (d : Draft) (l : Lexeme) : Point :=
  match l.token with
  | .eof => .idle d.operators (some (.ok (.sequence d.parts)))
  | .field => .path (.selector d) ""
  | .whereKeyword => .filter d
  | .leftParen | .rightParen | .leftBracket | .rightBracket =>
    .idle d.operators (some (.error (.unexpected l)))
  | _ => .stray d

namespace Point

/-- What the parser demands at a point. -/
def demand : Point → Demand
  | .idle operators _ => .nothing (.part ⟨[], operators⟩)
  | .part d => .look d.afterLook
  | .stray d => .take fun _ => .part d
  | .filter d => .take fun l => .phrase ⟨d.parts, l.pos, .start d.operators⟩
  | .path site text =>
    .take fun l => if l.token = .field then .path site (text ++ l.text) else .pathEnd site text l
  | .pathEnd site text next => .giveBack next (site.proceed text)
  | .phrase c => .look c.afterLook
  | .literal c => .take c.afterTake
  | .mark c l => .take fun _ => c.afterTake l

/-- How many operators have been read. -/
def operators : Point → Nat
  | .idle operators _ => operators
  | .part d | .stray d | .filter d => d.operators
  | .path site _ | .pathEnd site _ _ => site.operators
  | .phrase c | .literal c | .mark c _ => c.state.operators

/-- Where the parser goes on with an item.  Where scanning fails the call ends. -/
def goOn (p : Point) (next : Lexeme → Point) : Except ScanError Lexeme → Point
  | .ok l => next l
  | .error e => .idle p.operators (some (.error (.scan e)))

end Point

end Parser

/-- A text from which queries are read lexeme by lexeme. -/
structure Parser where
  lexemes : Lookahead
  point : Parser.Point

namespace Parser

/-- A text from its start. -/
def ofText (text : String) : Parser := ⟨.ofText text, .idle 0 none⟩

/-- Meets the demand of the point. -/
def step (p : Parser) : Parser :=
  match p.point.demand with
  | .nothing next => { p with point := next }
  | .take next =>
    let (item, lexemes) := p.lexemes.take
    ⟨lexemes, p.point.goOn next item⟩
  | .look next =>
    let (item, lexemes) := p.lexemes.look
    ⟨lexemes, p.point.goOn next item⟩
  | .giveBack l next => ⟨p.lexemes.giveBack l, next⟩

end Parser

end FieldQuery

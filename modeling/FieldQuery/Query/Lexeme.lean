/-
Lexemes of a query text.

`Lexeme.scan` cuts a text into lexemes.  Blank characters separate lexemes and belong to none;
every other character belongs to exactly one.  The list always ends in one of two ways, with
the lexeme `eof` or with an error, and neither stands anywhere else.

Positions are offsets in the UTF-8 encoding of the text.
-/
import FieldQuery.Query.Token
import FieldQuery.Text.Alphanumeric
import FieldQuery.Text.Blank
import FieldQuery.Text.Quoted

namespace FieldQuery

/-- The number of bytes that characters take in UTF-8. -/
def Text.byteLength : List Char → Nat
  | [] => 0
  | c :: rest => c.utf8Size + byteLength rest

theorem Text.byteLength_append (cs ds : List Char) :
    byteLength (cs ++ ds) = byteLength cs + byteLength ds := by
  induction cs with
  | nil => simp [byteLength]
  | cons c rest ih => simp only [List.cons_append, byteLength, ih, Nat.add_assoc]

/-- Why a text cannot be cut into lexemes. -/
inductive ScanError where
  /-- The character begins no lexeme. -/
  | malformed (c : Char) (pos : Nat)
  /-- A lone equals sign. -/
  | loneEquals (pos : Nat)
  /-- A number that runs into a word; the text ends with the first character of the word. -/
  | badNumber (text : String) (pos : Nat)
  /-- Quoted text without its closing mark. -/
  | unterminated (pos : Nat)
  deriving DecidableEq, Repr

namespace ScanError

/-- What is said to the user. -/
def message : ScanError → String
  | .malformed c pos =>
    "query is malformed: unexpected character " ++ Text.quotedChar c ++ " at position "
      ++ toString pos
  | .loneEquals pos =>
    "expected '=' after '=' at position " ++ toString pos ++ " (did you mean '=='?)"
  | .badNumber text pos =>
    "bad number syntax: " ++ Text.quoted text ++ " at position " ++ toString pos
  | .unterminated pos => "unterminated string starting at position " ++ toString pos

/-- Where the fault stands. -/
def pos : ScanError → Nat
  | .malformed _ pos => pos
  | .loneEquals pos => pos
  | .badNumber _ pos => pos
  | .unterminated pos => pos

end ScanError

/-- A classified piece of a query text. -/
structure Lexeme where
  token : Token
  /-- The offset of the first character. -/
  pos : Nat
  /-- The text as it is written. -/
  text : String
  deriving DecidableEq, Repr

namespace Lexeme

/-- The lexeme after the last character of a text of this many bytes. -/
def atEnd (size : Nat) : Lexeme := ⟨.eof, size, ""⟩

/-! ### One lexeme

Each of these functions is given what follows the first character of a lexeme and answers how
much of it belongs to the lexeme.
-/

/-- A relation that is written with an equals sign, or else the one written without it. -/
def relationAfter (plain withEquals : Relation) : List Char → Token × List Char
  | '=' :: _ => (.operator (.compare withEquals), ['='])
  | _ => (.operator (.compare plain), [])

/-- Everything up to the next quotation mark and the mark itself. -/
def quotedAfter (mark : Char) (rest : List Char) : Option (List Char) :=
  match rest.dropWhile (· != mark) with
  | [] => none
  | _ :: _ => some (rest.takeWhile (· != mark) ++ [mark])

/-- Digits, and a dot with more digits where a dot follows. -/
def numberAfter (rest : List Char) : List Char :=
  let whole := rest.takeWhile Char.isDigit
  match rest.dropWhile Char.isDigit with
  | '.' :: more => whole ++ '.' :: more.takeWhile Char.isDigit
  | _ => whole

/-- The kind of the lexeme that begins with `first`, and what of the rest belongs to it. -/
def munch (pos : Nat) (first : Char) (rest : List Char) : Except ScanError (Token × List Char) :=
  match first with
  | ',' => .ok (.comma, [])
  | '(' => .ok (.leftParen, [])
  | ')' => .ok (.rightParen, [])
  | '[' => .ok (.leftBracket, [])
  | ']' => .ok (.rightBracket, [])
  | '.' => .ok (.field, rest.takeWhile Text.isWord)
  | '!' => .ok (relationAfter .not .ne rest)
  | '<' => .ok (relationAfter .lt .le rest)
  | '>' => .ok (relationAfter .gt .ge rest)
  | '=' =>
    match rest with
    | '=' :: _ => .ok (.operator (.compare .eq), ['='])
    | _ => .error (.loneEquals pos)
  | '"' =>
    match quotedAfter '"' rest with
    | some body => .ok (.string, body)
    | none => .error (.unterminated pos)
  | '\'' =>
    match quotedAfter '\'' rest with
    | some body => .ok (.char, body)
    | none => .error (.unterminated pos)
  | c =>
    if c = '+' ∨ c = '-' ∨ c.isDigit then
      let number := numberAfter rest
      match rest.drop number.length with
      | next :: _ =>
        if Text.isWord next then
          .error (.badNumber (String.ofList (c :: number ++ [next])) pos)
        else .ok (.number, number)
      | [] => .ok (.number, number)
    else if Text.isWord c then
      let word := rest.takeWhile Text.isWord
      .ok (Token.ofWord (c :: word), word)
    else .error (.malformed c pos)

/-! ### All lexemes -/

/-- The lexemes of the characters from offset `pos` on. -/
def scanFrom (pos : Nat) (cs : List Char) : List (Except ScanError Lexeme) :=
  match _hcut : cs.dropWhile Text.isBlank with
  | [] => [.ok (atEnd (pos + Text.byteLength cs))]
  | first :: rest =>
    let start := pos + Text.byteLength (cs.takeWhile Text.isBlank)
    match munch start first rest with
    | .error e => [.error e]
    | .ok (token, more) =>
      .ok ⟨token, start, String.ofList (first :: more)⟩ ::
        scanFrom (start + Text.byteLength (first :: more)) (rest.drop more.length)
termination_by cs.length
decreasing_by
  have hle := (List.dropWhile_suffix (l := cs) Text.isBlank).length_le
  rw [_hcut, List.length_cons] at hle
  rw [List.length_drop]
  omega

/-- The lexemes of a text. -/
def scan (text : String) : List (Except ScanError Lexeme) := scanFrom 0 text.toList

end Lexeme

end FieldQuery

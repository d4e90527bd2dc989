/-
Tokens of JSON text.

Space, tab, line feed and carriage return may stand between tokens.  Numbers and the
three words are read as maximal runs of the characters that occur in them, which is no
restriction: in JSON text each of them is followed by a blank, a punctuation mark or the
end.

Cutting a text into tokens can fail, and then the text stands for no value whatever the
tokens are.  Whether the tokens are in an order in which JSON has them is left to the
reader.

The functions recurse on what is left of the text, which a string or a run shortens by
more than one character.  `length_of_readPieces` is what their termination rests on.
-/
import FieldQuery.Json.Number

namespace FieldQuery.Json

/-! ### Strings -/

/-- What stands for one character of a string, or for half of one. -/
inductive Piece where
  | char (c : Char)
  /-- Four hexadecimal digits, a unit of the UTF-16 encoding. -/
  | unit (n : Nat)
  deriving DecidableEq, Repr

/-- The value of a hexadecimal digit. -/
def hexDigit? (c : Char) : Option Nat :=
  if c.isDigit then some (c.toNat - '0'.toNat)
  else if 'a' ≤ c ∧ c ≤ 'f' then some (c.toNat - 'a'.toNat + 10)
  else if 'A' ≤ c ∧ c ≤ 'F' then some (c.toNat - 'A'.toNat + 10)
  else none

/-- The value of hexadecimal digits. -/
def hexValue? (digits : List Char) : Option Nat :=
  digits.foldlM (fun n c => (hexDigit? c).map (16 * n + ·)) 0

/-- The character that a letter after a backslash stands for. -/
def escape? : Char → Option Char
  | '"' => some '"'
  | '\\' => some '\\'
  | '/' => some '/'
  | 'b' => some '\x08'
  | 'f' => some '\x0c'
  | 'n' => some '\n'
  | 'r' => some '\r'
  | 't' => some '\t'
  | _ => none

/-- The pieces of a string up to its closing mark, and what follows the mark. -/
def readPieces : List Char → Option (List Piece × List Char)
  | [] => none
  | '"' :: rest => some ([], rest)
  | '\\' :: 'u' :: a :: b :: c :: d :: rest =>
    (hexValue? [a, b, c, d]).bind fun n =>
      (readPieces rest).map fun (pieces, rest) => (.unit n :: pieces, rest)
  | '\\' :: letter :: rest =>
    (escape? letter).bind fun c =>
      (readPieces rest).map fun (pieces, rest) => (.char c :: pieces, rest)
  | c :: rest =>
    if c.toNat < 0x20 then none
    else (readPieces rest).map fun (pieces, rest) => (.char c :: pieces, rest)

/-- The text that pieces stand for.  Units that are halves of a character must stand in pairs,
the upper half first. -/
def joinPieces : List Piece → Option (List Char)
  | [] => some []
  | .char c :: rest => (joinPieces rest).map (c :: ·)
  | .unit high :: .unit low :: rest =>
    if 0xd800 ≤ high ∧ high < 0xdc00 then
      if 0xdc00 ≤ low ∧ low < 0xe000 then
        (joinPieces rest).map
          (Char.ofNat (0x10000 + (high - 0xd800) * 0x400 + (low - 0xdc00)) :: ·)
      else none
    else if 0xdc00 ≤ high ∧ high < 0xe000 then none
    else (joinPieces (.unit low :: rest)).map (Char.ofNat high :: ·)
  | .unit n :: rest =>
    if 0xd800 ≤ n ∧ n < 0xe000 then none
    else (joinPieces rest).map (Char.ofNat n :: ·)

theorem length_of_readPieces {cs : List Char} {pieces : List Piece} {rest : List Char}
    (h : readPieces cs = some (pieces, rest)) : rest.length < cs.length := by
  fun_induction readPieces cs generalizing pieces rest with
  | case1 => simp at h
  | case2 => simp_all
  | case3 a b c d more ih =>
    simp only [Option.bind_eq_some_iff, Option.map_eq_some_iff, Prod.exists, Prod.mk.injEq] at h
    obtain ⟨n, -, pieces', rest', hread, -, rfl⟩ := h
    have := ih hread
    simp only [List.length_cons]
    omega
  | case4 letter more hnot ih =>
    simp only [Option.bind_eq_some_iff, Option.map_eq_some_iff, Prod.exists, Prod.mk.injEq] at h
    obtain ⟨c, -, pieces', rest', hread, -, rfl⟩ := h
    have := ih hread
    simp only [List.length_cons]
    omega
  | case5 => simp at h
  | case6 c more hmark hunit hletter hc ih =>
    simp only [Option.map_eq_some_iff, Prod.exists, Prod.mk.injEq] at h
    obtain ⟨pieces', rest', hread, -, rfl⟩ := h
    have := ih hread
    simp only [List.length_cons]
    omega

/-! ### Numbers and words -/

/-- Whether a character can stand in a number or a word. -/
def isRunChar (c : Char) : Bool := c.isAlphanum || c == '+' || c == '-' || c == '.'

/-- What a run of characters stands for. -/
def ofRun? (run : List Char) : Option Scalar :=
  if run = ['n', 'u', 'l', 'l'] then some .null
  else if run = ['t', 'r', 'u', 'e'] then some (.bool true)
  else if run = ['f', 'a', 'l', 's', 'e'] then some (.bool false)
  else number? run

/-! ### Tokens -/

/-- A token of JSON text. -/
inductive Token where
  | beginArray
  | endArray
  | beginObject
  | endObject
  | colon
  | comma
  | scalar (s : Scalar)
  deriving DecidableEq, Repr

/-- The token that one character makes. -/
def punctuation? : Char → Option Token
  | '[' => some .beginArray
  | ']' => some .endArray
  | '\x7b' => some .beginObject
  | '\x7d' => some .endObject
  | ':' => some .colon
  | ',' => some .comma
  | _ => none

/-- Whether a character may stand between tokens. -/
def isSpace (c : Char) : Bool := c == ' ' || c == '\t' || c == '\n' || c == '\r'

/-- The tokens of a text. -/
def tokens? : List Char → Option (List Token)
  | [] => some []
  | c :: rest =>
    if isSpace c then tokens? rest
    else
      match punctuation? c with
      | some token => (tokens? rest).map (token :: ·)
      | none =>
        if c = '"' then
          match _hread : readPieces rest with
          | none => none
          | some (pieces, more) =>
            (joinPieces pieces).bind fun text =>
              (tokens? more).map (.scalar (.string (String.ofList text)) :: ·)
        else
          let run := rest.takeWhile isRunChar
          (ofRun? (c :: run)).bind fun s =>
            (tokens? (rest.drop run.length)).map (.scalar s :: ·)
termination_by cs => cs.length
decreasing_by
  · simp
  · simp
  · have := length_of_readPieces _hread
    simp only [List.length_cons]
    omega
  · simp only [List.length_drop, List.length_cons]
    omega

end FieldQuery.Json

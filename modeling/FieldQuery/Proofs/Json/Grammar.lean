/-
The grammar of JSON text.

Reading JSON text is no part of the program, which hands texts to a reader that it is given.  What
it relies on is said here, without a reader: a text `Denotes` a value.

  * The text is strict JSON.  Between its tokens stand blanks of four kinds and nothing else, the
    parts of an array or an object are separated by single commas, and a number has no needless
    zero in front and digits on both sides of its dot.
  * No more than `maxDepth` arrays and objects stand inside one another.
  * Of several entries of an object with one key the last counts.
  * A number without fraction and exponent is an integer if it fits into 64 bits, with or without
    sign, and is not negative zero.  Any other number is the float that `decimal?` makes of its
    digits, which need not be the double nearest to it.

What makes this a specification is that none of it is about steps, states or what has been read
already.  `parse?` finds the value of every text that has one, and of no other:
`parse?_eq_some_iff`.  In particular no text has two values.
-/
import FieldQuery.Json.Reader

namespace FieldQuery.Json

/-! ### Strings -/

/-- What may stand between the quotation marks of a string, and the characters it stands for.  Half
a character must be followed by the other half. -/
inductive Quoted : List Char → List Char → Prop where
  | nil : Quoted [] []
  | plain {c : Char} {body text : List Char} (hmark : c ≠ '"') (hbackslash : c ≠ '\\')
      (hcontrol : 0x20 ≤ c.toNat) (hbody : Quoted body text) : Quoted (c :: body) (c :: text)
  | escape {letter c : Char} {body text : List Char} (hletter : escape? letter = some c)
      (hbody : Quoted body text) : Quoted ('\\' :: letter :: body) (c :: text)
  | unit {a b c d : Char} {n : Nat} {body text : List Char}
      (hvalue : hexValue? [a, b, c, d] = some n) (hwhole : n < 0xd800 ∨ 0xe000 ≤ n)
      (hbody : Quoted body text) :
      Quoted ('\\' :: 'u' :: a :: b :: c :: d :: body) (Char.ofNat n :: text)
  | pair {a b c d a' b' c' d' : Char} {high low : Nat} {body text : List Char}
      (hvalue : hexValue? [a, b, c, d] = some high) (hhigh : 0xd800 ≤ high ∧ high < 0xdc00)
      (hvalue' : hexValue? [a', b', c', d'] = some low) (hlow : 0xdc00 ≤ low ∧ low < 0xe000)
      (hbody : Quoted body text) :
      Quoted ('\\' :: 'u' :: a :: b :: c :: d :: '\\' :: 'u' :: a' :: b' :: c' :: d' :: body)
        (Char.ofNat (0x10000 + (high - 0xd800) * 0x400 + (low - 0xdc00)) :: text)

/-! ### Numbers -/

/-- A sign where there is one. -/
def minus (negative : Bool) : List Char := if negative then ['-'] else []

/-- One digit or more. -/
def AreDigits (cs : List Char) : Prop := cs ≠ [] ∧ ∀ c ∈ cs, c.isDigit = true

/-- The digits before the dot. -/
def WholePart (cs : List Char) : Prop := AreDigits cs ∧ (cs = ['0'] ∨ cs.head? ≠ some '0')

/-- The text from the dot on, and its digits. -/
inductive FractionPart : List Char → List Char → Prop where
  | none : FractionPart [] []
  | some {digits : List Char} (h : AreDigits digits) : FractionPart ('.' :: digits) digits

/-- The text from the letter on, and the exponent that it stands for. -/
inductive ExponentPart : List Char → Int → Prop where
  | none : ExponentPart [] 0
  | plain {mark : Char} {digits : List Char} (hmark : mark = 'e' ∨ mark = 'E')
      (h : AreDigits digits) : ExponentPart (mark :: digits) (Digits.toInt false digits)
  | plus {mark : Char} {digits : List Char} (hmark : mark = 'e' ∨ mark = 'E')
      (h : AreDigits digits) : ExponentPart (mark :: '+' :: digits) (Digits.toInt false digits)
  | minus {mark : Char} {digits : List Char} (hmark : mark = 'e' ∨ mark = 'E')
      (h : AreDigits digits) : ExponentPart (mark :: '-' :: digits) (Digits.toInt true digits)

/-- Whether a number of this sign and magnitude is held as an integer. -/
def FitsInteger (negative : Bool) (n : Nat) : Prop :=
  if negative then 0 < n ∧ n ≤ 0x8000000000000000 else n < 0x10000000000000000

/-- A number, and how it is held. -/
inductive Numeral : List Char → Scalar → Prop where
  | integer {negative : Bool} {whole : List Char} (hwhole : WholePart whole)
      (hfits : FitsInteger negative (Digits.toNat whole)) :
      Numeral (minus negative ++ whole) (.integer (Digits.toInt negative whole))
  | float {negative : Bool} {whole fraction digits power : List Char} {exponent : Int} {x : Double}
      (hwhole : WholePart whole) (hfraction : FractionPart fraction digits)
      (hexponent : ExponentPart power exponent)
      (hfloat : fraction ++ power = [] → ¬FitsInteger negative (Digits.toNat whole))
      (hvalue : decimal? negative whole digits exponent = some x) :
      Numeral (minus negative ++ whole ++ fraction ++ power) (.float x)

/-! ### Tokens -/

/-- The text of a token. -/
inductive Spelling : List Char → Token → Prop where
  | mark {c : Char} {token : Token} (h : punctuation? c = some token) : Spelling [c] token
  | nullWord : Spelling ['n', 'u', 'l', 'l'] (.scalar .null)
  | trueWord : Spelling ['t', 'r', 'u', 'e'] (.scalar (.bool true))
  | falseWord : Spelling ['f', 'a', 'l', 's', 'e'] (.scalar (.bool false))
  | number {cs : List Char} {s : Scalar} (h : Numeral cs s) : Spelling cs (.scalar s)
  | string {body text : List Char} (h : Quoted body text) :
      Spelling ('"' :: body ++ ['"']) (.scalar (.string (String.ofList text)))

/-- The text of tokens, with blanks between them. -/
inductive Spelled : List Char → List Token → Prop where
  | nil : Spelled [] []
  | space {c : Char} {cs : List Char} {toks : List Token} (hspace : isSpace c = true)
      (h : Spelled cs toks) : Spelled (c :: cs) toks
  | token {part cs : List Char} {token : Token} {toks : List Token} (hpart : Spelling part token)
      (h : Spelled cs toks) : Spelled (part ++ cs) (token :: toks)

/-! ### Values -/

/-- Parts with marks between and around them. -/
def enclosed (opening closing : Token) (parts : List (List Token)) : List Token :=
  opening :: List.intercalate [.comma] parts ++ [closing]

/-- The tokens of an entry: its key, a colon and its value. -/
def entryTokens (key : String) (value : List Token) : List Token :=
  .scalar (.string key) :: .colon :: value

/-- The tokens of a value in which at most `n` arrays and objects stand inside one another. -/
inductive Derives : Nat → List Token → Json → Prop where
  | scalar {n : Nat} (s : Scalar) : Derives n [.scalar s] (.scalar s)
  | array {n : Nat} {parts : List (List Token × Json)}
      (h : ∀ part ∈ parts, Derives n part.1 part.2) :
      Derives (n + 1) (enclosed .beginArray .endArray (parts.map Prod.fst))
        (.array (parts.map Prod.snd))
  | object {n : Nat} {parts : List (String × List Token × Json)}
      (h : ∀ part ∈ parts, Derives n part.2.1 part.2.2) :
      Derives (n + 1)
        (enclosed .beginObject .endObject (parts.map fun part => entryTokens part.1 part.2.1))
        (.object (Fields.ofList (parts.map fun part => (part.1, part.2.2))))

/-- **What a JSON text stands for.** -/
def Denotes (text : String) (j : Json) : Prop :=
  ∃ toks, Spelled text.toList toks ∧ Derives maxDepth toks j

end FieldQuery.Json

/-
The right side of a comparison.

It is a path or a literal, written in front of something that cannot make it longer.
Read back it is an operand without parentheses and operators, and it compares as the
value that it stands for: an integer within 64 bits keeps its value, and text compares
without its quotation marks.

Text here has no double quotation mark inside, so that it can be written between two of
them.  There are no escapes in a query.
-/
import FieldQuery.Proofs.KeyPath
import FieldQuery.Proofs.Tree.Numeral
import FieldQuery.Query.Truth

namespace FieldQuery

/-! ### Text without its marks

Stripping a mark is said as a relation first, so that a statement can name what is left
without naming a function.
-/

namespace Text

/-- What is left of characters once a mark in front of them is gone and then one behind the rest,
each only if it is there. -/
def Bared (mark : Char) (cs bare : List Char) : Prop :=
  ∃ body, (cs = mark :: body ∨ cs = body ∧ body.head? ≠ some mark) ∧
    (body = bare ++ [mark] ∨ body = bare ∧ bare.getLast? ≠ some mark)

private theorem front_iff {mark : Char} {cs body : List Char} :
    (cs = mark :: body ∨ cs = body ∧ body.head? ≠ some mark) ↔
      (if cs.head? = some mark then cs.tail else cs) = body := by
  by_cases hhead : cs.head? = some mark
  · obtain ⟨rest, rfl⟩ := List.head?_eq_some_iff.mp hhead
    simp only [List.head?_cons, if_true, List.tail_cons, List.cons.injEq, true_and]
    constructor
    · intro h
      apply h.resolve_right
      rintro ⟨rfl, hne⟩
      exact hne rfl
    · exact Or.inl
  · rw [if_neg hhead]
    constructor
    · rintro (rfl | ⟨rfl, -⟩)
      · exact absurd rfl hhead
      · rfl
    · rintro rfl
      exact .inr ⟨rfl, hhead⟩

private theorem back_iff {mark : Char} {body bare : List Char} :
    (body = bare ++ [mark] ∨ body = bare ∧ bare.getLast? ≠ some mark) ↔
      (if body.getLast? = some mark then body.dropLast else body) = bare := by
  by_cases hlast : body.getLast? = some mark
  · obtain ⟨rest, rfl⟩ := List.getLast?_eq_some_iff.mp hlast
    rw [if_pos hlast, List.dropLast_concat, List.append_left_inj]
    constructor
    · intro h
      apply h.resolve_right
      rintro ⟨rfl, hne⟩
      exact hne hlast
    · exact Or.inl
  · rw [if_neg hlast]
    constructor
    · rintro (rfl | ⟨rfl, -⟩)
      · exact absurd List.getLast?_concat hlast
      · rfl
    · rintro rfl
      exact .inr ⟨rfl, hlast⟩

theorem bared_iff {mark : Char} {cs bare : List Char} :
    Bared mark cs bare ↔ stripEach mark cs = bare := by
  simp only [Bared, front_iff, back_iff, exists_eq_left', stripEach]

/-- Between two marks stand the characters. -/
theorem bared_quoted (mark : Char) (cs : List Char) : Bared mark (mark :: (cs ++ [mark])) cs :=
  ⟨cs ++ [mark], .inl rfl, .inl rfl⟩

theorem bared_of_notMem {mark : Char} {cs : List Char} (h : mark ∉ cs) : Bared mark cs cs :=
  ⟨cs, .inr ⟨rfl, fun hhead => h (List.mem_of_head? hhead)⟩,
    .inr ⟨rfl, fun hlast => h (List.mem_of_getLast? hlast)⟩⟩

theorem stripPair_quoted (mark : Char) (cs : List Char) :
    stripPair mark (mark :: (cs ++ [mark])) = cs := by
  simp [stripPair]

/-- Text that begins otherwise has no pair of marks. -/
theorem stripPair_of_ne {mark first : Char} (h : first ≠ mark) (cs : List Char) :
    stripPair mark (first :: cs) = first :: cs := by
  simp [stripPair, h]

end Text

/-! ### Sides

Four kinds, each with its characters, its words, its tree and its value.
-/

/-- What a path can be compared with. -/
inductive Side where
  | path (p : KeyPath)
  | bool (b : Bool)
  | integer (n : Int64)
  /-- Text without double quotation marks. -/
  | text (s : String) (h : '"' ∉ s.toList)

namespace Side

/-- The side as it is written. -/
def chars : Side → List Char
  | .path p => p.text.toList
  | .bool b => (if b then "true" else "false").toList
  | .integer n => Digits.ofInt n.toInt
  | .text s _ => '"' :: (s.toList ++ ['"'])

/-- The tokens and texts that it is read into. -/
def words : Side → List (Token × String)
  | .path p => (Key.fields p.keys).map (Prod.mk .field)
  | .bool b => [(.bool, if b then "true" else "false")]
  | .integer n => [(.number, String.ofList (Digits.ofInt n.toInt))]
  | .text s _ => [(.string, String.ofList ('"' :: (s.toList ++ ['"'])))]

/-- The tree that it is read as. -/
def tree : Side → Tree
  | .path p => .path p.text
  | .bool b => .bool b
  | .integer n => .integer n
  | .text s _ => .quoted (String.ofList ('"' :: (s.toList ++ ['"'])))

/-- The value that it stands for, if the document has it. -/
def value? (d : Document) : Side → Option Value
  | .path p => d.get? p.text
  | .bool b => some (.bool b)
  | .integer n => some (.integer n)
  | .text s _ => some (.string s)

theorem reads_chars (side : Side) {rest : List Char} (hrest : Text.Stops rest) :
    Lexeme.Reads side.chars rest side.words := by
  cases side with
  | path p => exact Key.reads_pathText p.keys hrest.not_word
  | bool b =>
      cases b with
      | true | false =>
          exact Lexeme.reads_word
            (Lexeme.wordRun_of_mem_reserved (by simp [Text.reserved]) hrest.not_word)
  | integer n =>
      obtain ⟨first, digits, hofInt, hfirst, hdigits⟩ := Digits.ofInt_eq_cons n.toInt
      obtain ⟨sign, more, hsign, hne, hmore, hsplit⟩ :=
        Lexeme.exists_sign_iff.mpr ⟨first, digits, .inr hfirst, hdigits, rfl⟩
      rw [chars, words, hofInt, hsplit]
      exact Lexeme.reads_number hsign hne hmore hrest
  | text s h => exact Lexeme.reads_string h rest

/-- A stretch that is read into a single literal is its tree. -/
private theorem derives_literal {ls : List Lexeme} {token : Token} {text : String} {t : Tree}
    (h : ls.map Lexeme.word = [(token, text)]) (htoken : token.isLiteral = true)
    (ht : ∀ pos, Lexeme.literal? ⟨token, pos, text⟩ = some t) :
    Condition.Derives .operand ls t := by
  obtain ⟨pos, rfl⟩ := Lexeme.exists_of_word h
  exact .literal htoken (ht pos)

theorem derives (side : Side) {ls : List Lexeme} (h : ls.map Lexeme.word = side.words) :
    Condition.Derives .operand ls side.tree := by
  cases side with
  | path p => exact Condition.derives_fields (List.cons_ne_nil _ _) h
  | bool b =>
      refine derives_literal h rfl fun pos => ?_
      cases b <;> rfl
  | integer n =>
      refine derives_literal h rfl fun pos => ?_
      show Tree.number? (String.ofList (Digits.ofInt n.toInt)).toList = _
      rw [String.toList_ofList, Tree.number?_ofInt, tree]
  | text s _ => exact derives_literal h rfl fun pos => rfl

theorem plain_of_words (side : Side) {ls : List Lexeme} (h : ls.map Lexeme.word = side.words) :
    ∀ l ∈ ls, Condition.Plain l := by
  intro l hl
  have hmem : l.word ∈ side.words := h ▸ List.mem_map_of_mem hl
  cases side with
  | path p =>
      obtain ⟨name, -, hname⟩ := List.mem_map.mp hmem
      exact Condition.plain_of_field (Lexeme.token_of_word hname.symm)
  | bool b | integer n | text s _ =>
      have htoken := Lexeme.token_of_word (List.mem_singleton.mp hmem)
      exact Condition.plain_of_isLiteral (htoken ▸ rfl)

/-! ### The value of a side -/

/-- What is read back compares as the value that was written. -/
theorem compare_operand? (side : Side) (d : Document) (a : Value) :
    (side.tree.operand? d).bind a.compare? = (side.value? d).bind a.compare? := by
  cases side with
  | path p | bool b | integer n => rfl
  | text s h =>
      rw [tree, Tree.operand?, String.toList_ofList, Text.stripPair_of_ne (by decide), value?,
        Option.bind_some, Option.bind_some]
      cases a with
      | string t =>
          simp only [Value.compare?]
          rw [String.toList_ofList, Text.bared_iff.mp (Text.bared_quoted '"' s.toList),
            Text.bared_iff.mp (Text.bared_of_notMem h)]
      | null | bool _ | integer _ | float _ | array _ | object _ => rfl

end Side

end FieldQuery

/-
JSON text that is read token by token.

What a stretch of text is read as can depend on what follows it, because a number goes on as long
as it can.  `Reads` therefore speaks of a stretch in front of its actual rest; a mark and a string
are read as themselves in front of any rest, a number and a word in front of a rest that `Stops`
them.  A stretch that cannot be read spoils the whole text, so `Reads` says of every stretch whether
it is legible.

The grammar knows nothing of rests.  It allows two numbers side by side, and the reader takes them
for one, or for none.  What makes the two agree is that no value has two scalars side by side:
tokens that are `Apart` are found again, `tokens?_of_spelled`, and all tokens that are found are
those of the grammar, `spelled_of_tokens?`.
-/
import FieldQuery.Proofs.Json.Numeral
import FieldQuery.Proofs.Json.Quoted
import Mathlib.Data.List.Chain

namespace FieldQuery.Json

/-- No number and no word goes on here. -/
def Stops (rest : List Char) : Prop := ∀ c ∈ rest.head?, isRunChar c = false

/-- In front of `rest` the characters are read as these tokens, or refused if they are not
`legible`. -/
def Reads (cs rest : List Char) (legible : Bool) (read : List Token) : Prop :=
  tokens? (cs ++ rest) = if legible then (tokens? rest).map (read ++ ·) else none

/-! ### Putting stretches together

Positions play no part in JSON text, so a stretch is known by its tokens and by whether
it is legible.  Two stretches in a row are legible if both are.
-/

theorem reads_nil (rest : List Char) : Reads [] rest true [] := by
  show tokens? rest = (tokens? rest).map id
  exact Option.map_id.symm ▸ rfl

/-- Two stretches are read if both are. -/
theorem Reads.append {cs ds rest : List Char} {a b : Bool} {read more : List Token}
    (h : Reads cs (ds ++ rest) a read) (hmore : Reads ds rest b more) :
    Reads (cs ++ ds) rest (a && b) (read ++ more) := by
  unfold Reads at h hmore ⊢
  rw [List.append_assoc, h, hmore]
  cases a with
  | false => rfl
  | true =>
      cases b with
      | false => rfl
      | true =>
          rw [if_pos rfl, if_pos rfl, Bool.and_true, if_pos rfl, Option.map_map]
          congr 1
          funext toks
          exact (List.append_assoc read more toks).symm

/-- Blanks are read as nothing. -/
theorem reads_space {cs : List Char} (h : ∀ c ∈ cs, isSpace c = true) (rest : List Char) :
    Reads cs rest true [] := by
  induction cs with
  | nil => exact reads_nil rest
  | cons c cs ih =>
      obtain ⟨hc, hcs⟩ := List.forall_mem_cons.mp h
      have hskip : tokens? (c :: cs ++ rest) = tokens? (cs ++ rest) := by
        rw [List.cons_append, tokens?, if_pos hc]
      rw [Reads, hskip]
      exact ih hcs

theorem isSpace_of_punctuation? {c : Char} {token : Token} (h : punctuation? c = some token) :
    isSpace c = false := by
  unfold punctuation? at h
  split at h
  case h_7 => simp at h
  all_goals decide

/-- A punctuation mark is a token whatever follows. -/
theorem reads_punctuation {c : Char} {token : Token} (h : punctuation? c = some token)
    (rest : List Char) : Reads [c] rest true [token] := by
  rw [Reads, List.singleton_append, tokens?, isSpace_of_punctuation? h, h]
  rfl

/-- So is a punctuation mark with blanks behind it. -/
theorem reads_mark {c : Char} {token : Token} (h : punctuation? c = some token)
    {blanks : List Char} (hblanks : ∀ c ∈ blanks, isSpace c = true) (rest : List Char) :
    Reads (c :: blanks) rest true [token] :=
  (reads_punctuation h _).append (reads_space hblanks rest)

/-- A string is a token whatever follows. -/
theorem reads_quoted {body text : List Char} (h : Quoted body text) (rest : List Char) :
    Reads ('"' :: body ++ ['"']) rest true [.scalar (.string (String.ofList text))] := by
  obtain ⟨pieces, hread, hjoin⟩ := h.exists_readPieces rest
  have hchars : '"' :: body ++ ['"'] ++ rest = '"' :: (body ++ '"' :: rest) := by simp
  have hspace : ¬isSpace '"' = true := by decide
  rw [Reads, hchars, tokens?, if_neg hspace]
  show (if '"' = '"' then _ else _) = _
  rw [if_pos rfl]
  split
  · rename_i hnone
    rw [hread] at hnone
    cases hnone
  · rename_i pieces' more hsome
    rw [hread] at hsome
    obtain ⟨rfl, rfl⟩ := Prod.mk.inj (Option.some.inj hsome)
    rw [hjoin, Option.bind_some]
    rfl

/-- A run in front of something that ends it is one token, if it stands for anything. -/
theorem reads_run {run rest : List Char} {read? : Option Scalar} (hread : ofRun? run = read?)
    (s : Scalar) (hne : run ≠ []) (hrun : ∀ c ∈ run, isRunChar c = true) (hrest : Stops rest) :
    Reads run rest read?.isSome [.scalar (read?.getD s)] := by
  obtain ⟨c, more, rfl⟩ := List.exists_cons_of_ne_nil hne
  obtain ⟨hc, hmore⟩ := List.forall_mem_cons.mp hrun
  have hnot : ∀ d, isRunChar d = false → c ≠ d := by
    rintro d hd rfl
    exact absurd hc (by simp [hd])
  have hspace : ¬isSpace c = true := by
    simp [isSpace, hnot ' ' rfl, hnot '\t' rfl, hnot '\n' rfl, hnot '\r' rfl]
  have hpunctuation : punctuation? c = none := by
    unfold punctuation?
    split <;> first | rfl | exact absurd rfl (hnot _ rfl)
  have htake : (more ++ rest).takeWhile isRunChar = more := Text.takeWhile_stop hmore hrest
  rw [Reads, List.cons_append, tokens?, if_neg hspace, hpunctuation]
  show (if c = '"' then _ else _) = _
  rw [if_neg (hnot '"' rfl)]
  dsimp only
  rw [htake, hread, List.drop_left]
  cases read? <;> rfl

/-! ### Tokens that are apart

Between two tokens a blank may be missing.  It is needed between two scalars only, and
these never stand side by side in a value.
-/

/-- Whether a token is a scalar. -/
def Token.IsScalar : Token → Prop
  | .scalar _ => True
  | _ => False

/-- Whether no two scalars stand side by side. -/
def Apart (toks : List Token) : Prop := toks.IsChain fun a b => a.IsScalar → ¬b.IsScalar

theorem not_isScalar_of_punctuation? {c : Char} {token : Token}
    (h : punctuation? c = some token) : ¬token.IsScalar ∧ isRunChar c = false := by
  unfold punctuation? at h
  split at h
  case h_7 => simp at h
  all_goals
    obtain rfl := Option.some.inj h
    exact ⟨id, rfl⟩

theorem not_isRunChar_of_isSpace {c : Char} (h : isSpace c = true) : isRunChar c = false := by
  simp only [isSpace, Bool.or_eq_true, beq_iff_eq] at h
  rcases h with ((rfl | rfl) | rfl) | rfl <;> rfl

/-- In front of a token that is no scalar, and in front of the end, a number stops. -/
theorem Spelled.stops {cs : List Char} {toks : List Token} (h : Spelled cs toks)
    (hfirst : ∀ token ∈ toks.head?, ¬token.IsScalar) : Stops cs := by
  cases h with
  | nil => simp [Stops]
  | space hspace h =>
      intro c hc
      obtain rfl := Option.some.inj hc
      exact not_isRunChar_of_isSpace hspace
  | token hpart h =>
      have hnot := hfirst _ rfl
      cases hpart with
      | mark hmark =>
          intro c hc
          obtain rfl := Option.some.inj hc
          exact (not_isScalar_of_punctuation? hmark).2
      | nullWord | trueWord | falseWord | number _ | string _ => exact absurd trivial hnot

/-- Every token is read from its text. -/
theorem Spelling.reads {part rest : List Char} {token : Token} (h : Spelling part token)
    (hrest : token.IsScalar → Stops rest) : Reads part rest true [token] := by
  cases h with
  | mark hmark => exact reads_punctuation hmark rest
  | nullWord | trueWord | falseWord =>
      exact reads_run rfl .null (List.cons_ne_nil _ _) (List.all_eq_true.mp rfl) (hrest trivial)
  | number h => exact reads_run h.ofRun? .null h.ne_nil h.isRunChar (hrest trivial)
  | string h => exact reads_quoted h rest

/-- **Tokens that are apart are found in their text.** -/
theorem tokens?_of_spelled {cs : List Char} {toks : List Token} (h : Spelled cs toks)
    (hapart : Apart toks) : tokens? cs = some toks := by
  induction h with
  | nil => rw [tokens?]
  | space hspace h ih => rw [tokens?, if_pos hspace, ih hapart]
  | token hpart h ih =>
      have hrest := ih (List.IsChain.tail hapart)
      have hreads := hpart.reads fun hscalar => h.stops fun next hnext =>
        List.IsChain.rel_head? hapart hnext hscalar
      rw [Reads, hrest] at hreads
      exact hreads

theorem spelling_of_ofRun? {run : List Char} {s : Scalar} (h : ofRun? run = some s) :
    Spelling run (.scalar s) := by
  unfold ofRun? at h
  split at h
  · rename_i hword
    obtain rfl := Option.some.inj h
    exact hword ▸ .nullWord
  · split at h
    · rename_i hword
      obtain rfl := Option.some.inj h
      exact hword ▸ .trueWord
    · split at h
      · rename_i hword
        obtain rfl := Option.some.inj h
        exact hword ▸ .falseWord
      · exact .number (number?_iff.mp h)

/-- **The tokens that are found are those of the grammar.** -/
theorem spelled_of_tokens? {cs : List Char} {toks : List Token} (h : tokens? cs = some toks) :
    Spelled cs toks := by
  fun_induction tokens? cs generalizing toks with
  | case1 =>
      obtain rfl := Option.some.inj h
      exact .nil
  | case2 c rest hspace ih => exact .space hspace (ih h)
  | case3 c rest hspace token htoken ih =>
      obtain ⟨more, hmore, rfl⟩ := Option.map_eq_some_iff.mp h
      exact .token (.mark htoken) (ih hmore)
  | case4 => simp at h
  | case5 rest pieces more hread hspace hmark ih =>
      obtain ⟨text, htext, hrest⟩ := Option.bind_eq_some_iff.mp h
      obtain ⟨later, hlater, rfl⟩ := Option.map_eq_some_iff.mp hrest
      obtain ⟨body, rfl, hbody⟩ := readPieces_iff.mp ⟨pieces, hread, htext⟩
      have hstring := Spelled.token (.string hbody) (ih hlater)
      rwa [List.append_assoc] at hstring
  | case6 c rest hspace hmark hquote run =>
      rename_i ih
      obtain ⟨s, hs, hscalar⟩ := Option.bind_eq_some_iff.mp h
      obtain ⟨later, hlater, rfl⟩ := Option.map_eq_some_iff.mp hscalar
      have hsplit : c :: rest = (c :: run) ++ rest.drop run.length := by
        rw [List.cons_append, List.prefix_iff_eq_append.mp (List.takeWhile_prefix isRunChar)]
      rw [hsplit]
      exact .token (spelling_of_ofRun? hs) (ih hlater)

end FieldQuery.Json

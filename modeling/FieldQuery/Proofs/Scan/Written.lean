/-
Scanning text that was written lexeme by lexeme.

A lexeme ends where the next character cannot belong to it, so what a stretch of text is
cut into depends on what follows it.  `Reads` therefore speaks of a stretch in front of
its actual rest, and stretches are put together with their rests in place.  Positions
are left out: a stretch is read into tokens and texts wherever it stands.

A text that a program writes is a concatenation of lexemes and spaces, and reading it
takes one lemma for each.  Each of these is that the text of the lexeme is a longest one
in front of what the writer puts behind it, so a writer that forgets a space is found
out here: `Longest` fails in front of the next word.
-/
import FieldQuery.Numeric.Digits
import FieldQuery.Proofs.Scan.Cut

namespace FieldQuery

namespace Lexeme

/-- What a lexeme is without its position. -/
def word (l : Lexeme) : Token × String := (l.token, l.text)

theorem token_of_word {l : Lexeme} {token : Token} {text : String} (h : l.word = (token, text)) :
    l.token = token :=
  congrArg Prod.fst h

/-- Lexemes that are read as one word are one lexeme. -/
theorem exists_of_word {ls : List Lexeme} {token : Token} {text : String}
    (h : ls.map word = [(token, text)]) : ∃ pos, ls = [⟨token, pos, text⟩] := by
  obtain ⟨⟨token', pos, text'⟩, rest, rfl, hl, hrest⟩ := List.map_eq_cons_iff.mp h
  obtain ⟨rfl, rfl⟩ := Prod.mk.inj hl
  exact ⟨pos, by rw [List.map_eq_nil_iff.mp hrest]⟩

/-- Lexemes are enclosed by two others if their words are. -/
theorem exists_enclosed {ls : List Lexeme} {first last : Token × String}
    {words more : List (Token × String)} (h : ls.map word = first :: (words ++ last :: more)) :
    ∃ opening inner closing rest, ls = opening :: (inner ++ closing :: rest) ∧
      opening.word = first ∧ inner.map word = words ∧ closing.word = last ∧
      rest.map word = more := by
  obtain ⟨opening, behind, rfl, hopening, hbehind⟩ := List.map_eq_cons_iff.mp h
  obtain ⟨inner, after, rfl, hinner, hafter⟩ := List.map_eq_append_iff.mp hbehind
  obtain ⟨closing, rest, rfl, hclosing, hrest⟩ := List.map_eq_cons_iff.mp hafter
  exact ⟨opening, inner, closing, rest, rfl, hopening, hinner, hclosing, hrest⟩

/-- In front of `rest` the characters are cut into these tokens and texts. -/
def Reads (cs rest : List Char) (words : List (Token × String)) : Prop :=
  ∀ pos, ∃ ls : List Lexeme, ls.map word = words ∧
    scanFrom pos (cs ++ rest) = ls.map .ok ++ scanFrom (pos + Text.byteLength cs) rest

/-! ### One step of the scanner

The recursion of the scanner as one equation, with the blanks it has skipped.
-/

theorem scanFrom_eq (pos : Nat) (cs : List Char) :
    scanFrom pos cs =
      match cs.dropWhile Text.isBlank with
      | [] => [.ok (atEnd (pos + Text.byteLength cs))]
      | first :: rest =>
        match munch (pos + Text.byteLength (cs.takeWhile Text.isBlank)) first rest with
        | .error e => [.error e]
        | .ok (token, more) =>
          .ok ⟨token, pos + Text.byteLength (cs.takeWhile Text.isBlank),
            String.ofList (first :: more)⟩ ::
          scanFrom (pos + Text.byteLength (cs.takeWhile Text.isBlank) +
            Text.byteLength (first :: more)) (rest.drop more.length) := by
  rw [scanFrom]
  split
  · rename_i hcut
    exact hcut ▸ rfl
  · rename_i first rest hcut
    exact hcut ▸ rfl

/-! ### Putting stretches together

A stretch is any text that is read into whole lexemes, not one lexeme.  So `Reads` is
closed under appending, and repeated text is read by an induction of its own.
-/

theorem reads_nil (rest : List Char) : Reads [] rest [] :=
  fun _ => ⟨[], rfl, rfl⟩

theorem Reads.append {cs ds rest : List Char} {words more : List (Token × String)}
    (h : Reads cs (ds ++ rest) words) (hmore : Reads ds rest more) :
    Reads (cs ++ ds) rest (words ++ more) := by
  intro pos
  obtain ⟨ls, rfl, hls⟩ := h pos
  obtain ⟨ls', rfl, hls'⟩ := hmore (pos + Text.byteLength cs)
  refine ⟨ls ++ ls', List.map_append, ?_⟩
  rw [List.append_assoc, hls, hls', List.map_append, List.append_assoc,
    Text.byteLength_append, Nat.add_assoc]

/-- A longest lexeme at the front of what is scanned stands where that begins. -/
theorem scanFrom_lexeme {piece rest : List Char} {token : Token} (h : Longest rest piece token)
    (pos : Nat) :
    scanFrom pos (piece ++ rest) =
      .ok ⟨token, pos, String.ofList piece⟩ :: scanFrom (pos + Text.byteLength piece) rest := by
  obtain ⟨first, more, rfl⟩ := List.exists_cons_of_ne_nil h.ne_nil
  have hblank : ¬Text.isBlank first = true := Bool.eq_false_iff.mp h.isBlank_eq_false
  have hdrop : (first :: more ++ rest).dropWhile Text.isBlank = first :: (more ++ rest) := by
    rw [List.cons_append, List.dropWhile_cons_of_neg hblank]
  have htake : (first :: more ++ rest).takeWhile Text.isBlank = [] := by
    rw [List.cons_append, List.takeWhile_cons_of_neg hblank]
  have hpos : pos + Text.byteLength [] = pos := rfl
  rw [scanFrom_eq, hdrop, htake]
  simp only [hpos, munch_of_longest h, List.drop_left]

theorem reads_lexeme {piece rest : List Char} {token : Token} (h : Longest rest piece token) :
    Reads piece rest [(token, String.ofList piece)] :=
  fun pos => ⟨[⟨token, pos, String.ofList piece⟩], rfl, scanFrom_lexeme h pos⟩

/-- Blanks are read into nothing. -/
theorem reads_blank {gap : List Char} (h : ∀ c ∈ gap, Text.isBlank c = true)
    (rest : List Char) : Reads gap rest [] := by
  intro pos
  refine ⟨[], rfl, ?_⟩
  have hdrop : (gap ++ rest).dropWhile Text.isBlank = rest.dropWhile Text.isBlank :=
    List.dropWhile_append_of_pos h
  have htake : (gap ++ rest).takeWhile Text.isBlank = gap ++ rest.takeWhile Text.isBlank :=
    List.takeWhile_append_of_pos h
  rw [List.map_nil, List.nil_append, scanFrom_eq, scanFrom_eq (pos + Text.byteLength gap), hdrop,
    htake]
  simp only [Text.byteLength_append, Nat.add_assoc]

/-- A stretch that is read in front of anything is read any number of times. -/
theorem Reads.replicate {cs : List Char} {words : List (Token × String)}
    (h : ∀ rest, Reads cs rest words) (n : Nat) (rest : List Char) :
    Reads (List.replicate n cs).flatten rest (List.replicate n words).flatten := by
  induction n with
  | zero => exact reads_nil rest
  | succ n ih =>
      rw [List.replicate_succ, List.replicate_succ, List.flatten_cons, List.flatten_cons]
      exact (h _).append ih

theorem reads_space (rest : List Char) : Reads [' '] rest [] :=
  reads_blank (List.all_eq_true.mp (by decide)) rest

/-- A space behind a stretch. -/
theorem Reads.spaced {cs rest : List Char} {words : List (Token × String)}
    (h : Reads cs (' ' :: rest) words) : Reads (cs ++ [' ']) rest words := by
  have happend : Reads (cs ++ [' ']) rest (words ++ []) := Reads.append h (reads_space rest)
  rwa [List.append_nil] at happend

/-- A text that is read into words is cut without error. -/
theorem Reads.scan {cs : List Char} {words : List (Token × String)} (h : Reads cs [] words) :
    ∃ (ls : List Lexeme) (last : Lexeme), ls.map word = words ∧
      Lexeme.scan (String.ofList cs) = ls.map .ok ++ [.ok last] := by
  obtain ⟨ls, hwords, hscan⟩ := h 0
  rw [List.append_nil, scanFrom_eq _ []] at hscan
  have hofList : Lexeme.scan (String.ofList cs) = scanFrom 0 cs := by
    rw [Lexeme.scan, String.toList_ofList]
  exact ⟨ls, _, hwords, hofList.trans hscan⟩

/-! ### The kinds of lexemes

Each kind is read because its text is a longest one in front of the rest. -/

theorem reads_field {name rest : List Char} (hname : ∀ c ∈ name, Text.isWord c = true)
    (hrest : ∀ c ∈ rest.head?, Text.isWord c = false) :
    Reads ('.' :: name) rest [(.field, String.ofList ('.' :: name))] :=
  reads_lexeme (show Longest rest _ .field from ⟨name, rfl, hname, hrest⟩)

theorem reads_leftParen (rest : List Char) : Reads ['('] rest [(.leftParen, "(")] :=
  reads_lexeme (show Longest rest _ .leftParen from rfl)

theorem reads_rightParen (rest : List Char) : Reads [')'] rest [(.rightParen, ")")] :=
  reads_lexeme (show Longest rest _ .rightParen from rfl)

/-- A word is a word up to its end, and no keyword is cut out of it. -/
theorem reads_word {piece rest : List Char} (h : Text.WordRun piece rest) :
    Reads piece rest [(Token.ofWord piece, String.ofList piece)] :=
  reads_lexeme (longest_ofWord h)

theorem reads_where (rest : List Char) :
    Reads "where ".toList rest [(.whereKeyword, "where")] := by
  have hrun := wordRun_of_mem_reserved (by decide : "where" ∈ Text.reserved)
    (Text.stops_space rest).not_word
  exact (reads_word hrun).spaced

/-- A sign and digits, not both missing, are one number. -/
theorem reads_number {sign digits rest : List Char} (hsign : Text.IsSign sign)
    (hne : sign ++ digits ≠ []) (hdigits : ∀ c ∈ digits, c.isDigit = true)
    (hrest : Text.Stops rest) :
    Reads (sign ++ digits) rest [(.number, String.ofList (sign ++ digits))] :=
  reads_lexeme (show Longest rest _ .number from
    ⟨.of_whole hsign hne hdigits hrest, hrest.not_word⟩)

/-- Text between two marks of one kind is one lexeme, whatever it holds beside the mark. -/
theorem reads_quoted {mark : Char} {token : Token}
    (hkind : mark = '"' ∧ token = .string ∨ mark = '\'' ∧ token = .char) {body : List Char}
    (h : mark ∉ body) (rest : List Char) :
    Reads (mark :: (body ++ [mark])) rest [(token, String.ofList (mark :: (body ++ [mark])))] := by
  obtain ⟨rfl, rfl⟩ | ⟨rfl, rfl⟩ := hkind
  · exact reads_lexeme (show Longest rest _ .string from ⟨body, h, rfl⟩)
  · exact reads_lexeme (show Longest rest _ .char from ⟨body, h, rfl⟩)

theorem reads_string {body : List Char} (h : '"' ∉ body) (rest : List Char) :
    Reads ('"' :: (body ++ ['"'])) rest [(.string, String.ofList ('"' :: (body ++ ['"'])))] :=
  reads_quoted (.inl ⟨rfl, rfl⟩) h rest

/-- A relation with something behind it that cannot make it longer. -/
theorem reads_relation (relation : Relation) {rest : List Char} (h : Text.Stops rest) :
    Reads relation.symbol.toList rest [(.operator (.compare relation), relation.symbol)] := by
  have hlongest : Longest rest relation.symbol.toList (.operator (.compare relation)) :=
    ⟨rfl, fun _ hhead => (h '=' hhead).2.2 rfl⟩
  have hreads := reads_lexeme hlongest
  rwa [String.ofList_toList] at hreads

theorem reads_operator (op : Operator) {rest : List Char} (h : Text.Stops rest) :
    Reads op.symbol.toList rest [(.operator op, op.symbol)] := by
  cases op with
  | compare relation => exact reads_relation relation h
  | and | or | isIn | contains =>
      exact reads_word (wordRun_of_mem_reserved (by decide) h.not_word)

end Lexeme

end FieldQuery

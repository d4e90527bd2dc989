/-
The kinds of lexemes, and what one step of the scanner answers.

`Longest` says of every kind of lexeme which texts it has and what cannot stand behind them, and
`Fault` lists the texts at whose front no lexeme stands.  Neither says how a text is scanned.  One
step of the scanner, `munch`, answers with the one or the other, and `munch_eq_iff` says which:
with a longest lexeme where there is one, and otherwise with the fault.  Nothing else about the
step is needed anywhere, and it is not opened again.

Both halves of this are one-sided.  A longest lexeme is cut off by the step, `munch_of_longest`,
and a fault stops it, `munch_of_fault`; each is a computation, kind by kind.  What makes them
enough is that every text begins with a longest lexeme or a fault, `exists_front`, and the step
has but one answer.

Not proved here: that no text begins with two longest lexemes.  That follows, because the step
would have to answer with both.
-/
import FieldQuery.Proofs.Text.Classes
import FieldQuery.Proofs.Text.Runs
import FieldQuery.Query.Lexeme

namespace FieldQuery

namespace Text

/-- A run of word characters that goes on as far as it can and does not begin with a digit. -/
structure WordRun (piece after : List Char) : Prop where
  ne_nil : piece ≠ []
  isWord : ∀ c ∈ piece, isWord c = true
  first : ∀ c ∈ piece.head?, c.isDigit = false
  ends : ∀ c ∈ after.head?, Text.isWord c = false

/-- The characters are a sign or nothing. -/
def IsSign (cs : List Char) : Prop := cs = [] ∨ cs = ['+'] ∨ cs = ['-']

/-- A number that begins with a sign or a digit and goes on as far as it can. -/
inductive NumberRun (after : List Char) : List Char → Prop
  | whole {sign digits : List Char} (hsign : IsSign sign) (hne : sign ++ digits ≠ [])
      (hdigits : ∀ c ∈ digits, c.isDigit = true)
      (hends : ∀ c ∈ after.head?, c.isDigit = false ∧ c ≠ '.') : NumberRun after (sign ++ digits)
  | dotted {sign digits fraction : List Char} (hsign : IsSign sign) (hne : sign ++ digits ≠ [])
      (hdigits : ∀ c ∈ digits, c.isDigit = true) (hfraction : ∀ c ∈ fraction, c.isDigit = true)
      (hends : ∀ c ∈ after.head?, c.isDigit = false) :
      NumberRun after (sign ++ digits ++ '.' :: fraction)

/-- The words that are no identifiers. -/
def reserved : List String := ["where", "and", "or", "in", "contains", "true", "false"]

/-- The characters that begin a lexeme which is no number and no word. -/
def marks : List Char := [',', '(', ')', '[', ']', '.', '!', '<', '>', '=', '"', '\'']

/-- Neither a word nor a number nor a relation goes on here. -/
def Stops (rest : List Char) : Prop :=
  ∀ c ∈ rest.head?, isWord c = false ∧ c ≠ '.' ∧ c ≠ '='

end Text

namespace Lexeme

open Text

/-- The text is one of the kind, and the kind has no longer text that goes on with what stands
behind it. -/
def Longest (after piece : List Char) : Token → Prop
  | .eof => False
  | .field => ∃ name, piece = '.' :: name ∧ (∀ c ∈ name, isWord c = true) ∧
      ∀ c ∈ after.head?, isWord c = false
  | .identifier => WordRun piece after ∧ String.ofList piece ∉ reserved
  | .bool => WordRun piece after ∧ (piece = "true".toList ∨ piece = "false".toList)
  | .whereKeyword => WordRun piece after ∧ piece = "where".toList
  | .operator (.compare relation) => piece = relation.symbol.toList ∧
      (relation = .lt ∨ relation = .gt ∨ relation = .not → after.head? ≠ some '=')
  | .operator op => WordRun piece after ∧ piece = op.symbol.toList
  | .number => NumberRun after piece ∧ ∀ c ∈ after.head?, isWord c = false
  | .string => ∃ body, '"' ∉ body ∧ piece = '"' :: (body ++ ['"'])
  | .char => ∃ body, '\'' ∉ body ∧ piece = '\'' :: (body ++ ['\''])
  | .leftParen => piece = ['(']
  | .rightParen => piece = [')']
  | .leftBracket => piece = ['[']
  | .rightBracket => piece = [']']
  | .comma => piece = [',']

/-- The texts, from this position on, at whose front no lexeme stands, and what is said of
them. -/
inductive Fault (pos : Nat) : List Char → ScanError → Prop
  | loneEquals {rest : List Char} (h : rest.head? ≠ some '=') :
      Fault pos ('=' :: rest) (.loneEquals pos)
  | unterminated {mark : Char} {rest : List Char} (hmark : mark = '"' ∨ mark = '\'')
      (h : mark ∉ rest) : Fault pos (mark :: rest) (.unterminated pos)
  | badNumber {run rest : List Char} {next : Char} (hrun : NumberRun (next :: rest) run)
      (hnext : isWord next = true) :
      Fault pos (run ++ next :: rest) (.badNumber (String.ofList (run ++ [next])) pos)
  | malformed {c : Char} {rest : List Char} (hmarks : c ∉ marks) (hplus : c ≠ '+')
      (hminus : c ≠ '-') (hword : isWord c = false) : Fault pos (c :: rest) (.malformed c pos)

/-- What the scanner can answer at the front of a text. -/
inductive Front (pos : Nat) (first : Char) (rest : List Char) :
    Except ScanError (Token × List Char) → Prop
  | lexeme {token : Token} {more after : List Char} (hrest : rest = more ++ after)
      (h : Longest after (first :: more) token) : Front pos first rest (.ok (token, more))
  | fault {e : ScanError} (h : Fault pos (first :: rest) e) : Front pos first rest (.error e)

end Lexeme

namespace Text

/-! ### What stops a run

A stop is said of the first character behind a run, so nothing has to be known of the rest. -/

variable {rest : List Char}

theorem Stops.not_word (h : Stops rest) : ∀ c ∈ rest.head?, isWord c = false :=
  fun c hc => (h c hc).1

theorem Stops.not_digit (h : Stops rest) : ∀ c ∈ rest.head?, c.isDigit = false := by
  intro c hc
  by_contra hdigit
  have hword := isWord_of_isDigit (by simpa using hdigit)
  simp [(h c hc).1] at hword

theorem stops_nil : Stops [] := by
  intro c hc
  simp at hc

theorem stops_space (rest : List Char) : Stops (' ' :: rest) := by
  intro c hc
  obtain rfl := Option.some.inj hc
  exact ⟨by decide, by decide, by decide⟩

theorem stops_rightParen (rest : List Char) : Stops (')' :: rest) := by
  intro c hc
  obtain rfl := Option.some.inj hc
  exact ⟨by decide, by decide, by decide⟩

theorem NumberRun.of_whole {sign digits after : List Char} (hsign : IsSign sign)
    (hne : sign ++ digits ≠ []) (hdigits : ∀ c ∈ digits, c.isDigit = true) (hafter : Stops after) :
    NumberRun after (sign ++ digits) :=
  .whole hsign hne hdigits fun c hc => ⟨hafter.not_digit c hc, (hafter c hc).2.1⟩

/-- What stops a run of characters does not go on with it. -/
theorem head_dropWhile (p : Char → Bool) (cs : List Char) :
    ∀ c ∈ (cs.dropWhile p).head?, p c = false := by
  intro c hc
  have hhead := List.head?_dropWhile_not p cs
  rw [hc] at hhead
  exact hhead

/-- Everything in front of a mark, where nothing in front is one. -/
theorem takeWhile_mark {mark : Char} {cs : List Char} (h : mark ∉ cs) (rest : List Char) :
    (cs ++ mark :: rest).takeWhile (· != mark) = cs :=
  takeWhile_stop (fun _ hc => bne_iff_ne.mpr fun heq => h (heq ▸ hc)) (by simp)

theorem dropWhile_mark {mark : Char} {cs : List Char} (h : mark ∉ cs) (rest : List Char) :
    (cs ++ mark :: rest).dropWhile (· != mark) = mark :: rest :=
  dropWhile_stop (fun _ hc => bne_iff_ne.mpr fun heq => h (heq ▸ hc)) (by simp)

/-- The first mark cuts a text into what stands in front of it and what stands behind it. -/
theorem append_mark_inj {mark : Char} {cs ds rest more : List Char} (hcs : mark ∉ cs)
    (hds : mark ∉ ds) (h : cs ++ mark :: rest = ds ++ mark :: more) : cs = ds ∧ rest = more := by
  have hfront : cs = ds := by
    rw [← takeWhile_mark hcs rest, h, takeWhile_mark hds]
  rw [hfront] at h
  exact ⟨hfront, (List.cons.inj (List.append_cancel_left h)).2⟩

end Text

namespace Lexeme

open Text

/-! ### Signs and digits

The scanner takes the first character of a number by itself, be it a sign or a digit,
and the digits behind it.  The kind speaks of a sign, which may be missing, and digits.
The two agree because a lone sign is a number too, so neither of the parts has to be
there.
-/

/-- Whether a number can begin with this character. -/
def BeginsNumber (first : Char) : Prop := first = '+' ∨ first = '-' ∨ first.isDigit = true

instance (first : Char) : Decidable (BeginsNumber first) := inferInstanceAs (Decidable (_ ∨ _))

/-- A sign and digits, not both missing, are a sign or digit and digits. -/
theorem exists_sign_iff {cs : List Char} :
    (∃ sign digits, IsSign sign ∧ sign ++ digits ≠ [] ∧ (∀ c ∈ digits, c.isDigit = true) ∧
      cs = sign ++ digits) ↔
    ∃ first digits, BeginsNumber first ∧ (∀ c ∈ digits, c.isDigit = true) ∧
      cs = first :: digits := by
  constructor
  · rintro ⟨sign, digits, rfl | rfl | rfl, hne, hdigits, rfl⟩
    · obtain ⟨first, rest, rfl⟩ := List.exists_cons_of_ne_nil hne
      obtain ⟨hfirst, hrest⟩ := List.forall_mem_cons.mp hdigits
      exact ⟨first, rest, .inr (.inr hfirst), hrest, rfl⟩
    · exact ⟨'+', digits, .inl rfl, hdigits, rfl⟩
    · exact ⟨'-', digits, .inr (.inl rfl), hdigits, rfl⟩
  · rintro ⟨first, digits, rfl | rfl | hfirst, hdigits, rfl⟩
    · exact ⟨['+'], digits, .inr (.inl rfl), by simp, hdigits, rfl⟩
    · exact ⟨['-'], digits, .inr (.inr rfl), by simp, hdigits, rfl⟩
    · exact ⟨[], first :: digits, .inl rfl, by simp, List.forall_mem_cons.mpr ⟨hfirst, hdigits⟩,
        rfl⟩

/-- A number takes in a dot that stands behind its digits, and the digits behind the dot. -/
theorem numberAfter_of_dot {rest more : List Char}
    (h : rest.dropWhile Char.isDigit = '.' :: more) :
    numberAfter rest = rest.takeWhile Char.isDigit ++ '.' :: more.takeWhile Char.isDigit := by
  simp only [numberAfter, h]

theorem numberAfter_of_head_ne {rest : List Char}
    (h : (rest.dropWhile Char.isDigit).head? ≠ some '.') :
    numberAfter rest = rest.takeWhile Char.isDigit := by
  unfold numberAfter
  split
  · rename_i hdrop
    simp [hdrop] at h
  · rfl

/-- What the scanner takes for a number goes on as far as a number can. -/
theorem exists_of_numberAfter {first : Char} (rest : List Char) (hfirst : BeginsNumber first) :
    ∃ after, rest = numberAfter rest ++ after ∧ NumberRun after (first :: numberAfter rest) := by
  have hall : ∀ cs : List Char, ∀ c ∈ cs.takeWhile Char.isDigit, c.isDigit = true :=
    fun cs c hc => List.mem_takeWhile_imp hc
  have hstop := head_dropWhile Char.isDigit
  obtain ⟨sign, digits, hsign, hne, hdigits, hsplit⟩ :=
    exists_sign_iff.mpr ⟨first, rest.takeWhile Char.isDigit, hfirst, hall rest, rfl⟩
  by_cases hdot : (rest.dropWhile Char.isDigit).head? = some '.'
  · obtain ⟨more, hmore⟩ := List.head?_eq_some_iff.mp hdot
    refine ⟨more.dropWhile Char.isDigit, ?_, ?_⟩
    · rw [numberAfter_of_dot hmore, List.append_assoc, List.cons_append,
        List.takeWhile_append_dropWhile, ← hmore, List.takeWhile_append_dropWhile]
    · rw [numberAfter_of_dot hmore, ← List.cons_append, hsplit]
      exact .dotted hsign hne hdigits (hall more) (hstop more)
  · refine ⟨rest.dropWhile Char.isDigit, ?_, ?_⟩
    · rw [numberAfter_of_head_ne hdot, List.takeWhile_append_dropWhile]
    · rw [numberAfter_of_head_ne hdot, hsplit]
      refine .whole hsign hne hdigits fun c hc => ⟨hstop rest c hc, ?_⟩
      rintro rfl
      exact hdot hc

/-- A number that goes on as far as it can is what the scanner takes. -/
theorem numberAfter_of_numberRun {run after : List Char} (h : NumberRun after run) :
    ∃ first body, BeginsNumber first ∧ run = first :: body ∧
      numberAfter (body ++ after) = body := by
  cases h with
  | whole hsign hne hdigits hends =>
      obtain ⟨first, digits, hfirst, hall, hsplit⟩ :=
        exists_sign_iff.mp ⟨_, _, hsign, hne, hdigits, rfl⟩
      refine ⟨first, digits, hfirst, hsplit, ?_⟩
      have hstop : ∀ c ∈ after.head?, c.isDigit = false := fun c hc => (hends c hc).1
      rw [numberAfter_of_head_ne, takeWhile_stop hall hstop]
      rw [dropWhile_stop hall hstop]
      exact fun hhead => (hends '.' hhead).2 rfl
  | @dotted _ _ fraction hsign hne hdigits hfraction hends =>
      obtain ⟨first, digits, hfirst, hall, hsplit⟩ :=
        exists_sign_iff.mp ⟨_, _, hsign, hne, hdigits, rfl⟩
      refine ⟨first, digits ++ '.' :: fraction, hfirst, by rw [hsplit, List.cons_append], ?_⟩
      have hstop : ∀ c ∈ ('.' :: (fraction ++ after)).head?, c.isDigit = false := by
        intro c hc
        obtain rfl := Option.some.inj hc
        rfl
      rw [List.append_assoc, List.cons_append, numberAfter_of_dot (dropWhile_stop hall hstop),
        takeWhile_stop hall hstop, takeWhile_stop hfraction hends]

/-! ### Where no mark begins a lexeme

The step looks at its first character, and twelve characters have a case of their own.
What is left when none of them stands there is one condition after the other: a number,
a word, or nothing.
-/

/-- Where no mark begins a lexeme, a sign or digit begins a number and a letter a word. -/
theorem munch_of_notMem_marks {first : Char} (h : first ∉ marks) (pos : Nat) (rest : List Char) :
    munch pos first rest =
      if BeginsNumber first then
        match rest.drop (numberAfter rest).length with
        | next :: _ =>
          if isWord next then
            .error (.badNumber (String.ofList (first :: numberAfter rest ++ [next])) pos)
          else .ok (.number, numberAfter rest)
        | [] => .ok (.number, numberAfter rest)
      else if isWord first then
        .ok (Token.ofWord (first :: rest.takeWhile isWord), rest.takeWhile isWord)
      else .error (.malformed first pos) := by
  unfold munch
  split
  case h_13 => rfl
  all_goals exact absurd (by decide) h

theorem BeginsNumber.notMem_marks {first : Char} (h : BeginsNumber first) : first ∉ marks := by
  intro hmem
  simp only [marks, List.mem_cons, List.not_mem_nil, or_false] at hmem
  rcases hmem with rfl | rfl | rfl | rfl | rfl | rfl | rfl | rfl | rfl | rfl | rfl | rfl <;>
    exact absurd h (by simp [BeginsNumber, Char.isDigit])

theorem notMem_marks_of_isWord {first : Char} (h : isWord first = true) : first ∉ marks := by
  have hall : marks.all (fun mark => !isWord mark) = true := by decide
  intro hmem
  have hnot := List.all_eq_true.mp hall first hmem
  rw [h] at hnot
  exact absurd hnot (by decide)

/-- A number is one lexeme, or an error where a word follows at once. -/
theorem munch_number {first : Char} {body after : List Char} (hfirst : BeginsNumber first)
    (hbody : numberAfter (body ++ after) = body) (pos : Nat) :
    munch pos first (body ++ after) =
      match after.head? with
      | some next =>
        if isWord next then .error (.badNumber (String.ofList (first :: body ++ [next])) pos)
        else .ok (.number, body)
      | none => .ok (.number, body) := by
  rw [munch_of_notMem_marks hfirst.notMem_marks, if_pos hfirst, hbody, List.drop_left]
  cases after <;> rfl

theorem munch_word {first : Char} {more after : List Char} (h : WordRun (first :: more) after)
    (pos : Nat) :
    munch pos first (more ++ after) = .ok (Token.ofWord (first :: more), more) := by
  obtain ⟨hfirst, hmore⟩ := List.forall_mem_cons.mp h.isWord
  have hnumber : ¬BeginsNumber first := by
    rintro (rfl | rfl | hdigit)
    · exact absurd hfirst (by decide)
    · exact absurd hfirst (by decide)
    · exact absurd (hdigit.symm.trans (h.first first rfl)) (by decide)
  rw [munch_of_notMem_marks (notMem_marks_of_isWord hfirst), if_neg hnumber, if_pos hfirst,
    takeWhile_stop hmore h.ends]

/-! ### Quoted text and relations

Two lexemes are cut off by looking for their end.  Quoted text ends at the first mark of
the kind that opened it, and a relation takes in an equals sign if one stands behind it.
-/

theorem quotedAfter_body {mark : Char} {body : List Char} (h : mark ∉ body) (rest : List Char) :
    quotedAfter mark (body ++ mark :: rest) = some (body ++ [mark]) := by
  unfold quotedAfter
  rw [dropWhile_mark h, takeWhile_mark h]

theorem quotedAfter_eq_none {mark : Char} {rest : List Char} (h : mark ∉ rest) :
    quotedAfter mark rest = none := by
  have hall : ∀ c ∈ rest, (c != mark) = true :=
    fun c hc => bne_iff_ne.mpr fun heq => h (heq ▸ hc)
  rw [quotedAfter, List.dropWhile_eq_nil_iff.mpr hall]

theorem relationAfter_of_head_ne {rest : List Char} (h : rest.head? ≠ some '=')
    (plain withEquals : Relation) :
    relationAfter plain withEquals rest = (.operator (.compare plain), []) := by
  unfold relationAfter
  split
  · exact absurd rfl h
  · rfl

/-- A relation that ends in an equals sign is never shorter. -/
theorem longest_withEquals {relation : Relation} {first : Char}
    (h : relation.symbol.toList = [first, '=']) (after : List Char) :
    Longest after [first, '='] (.operator (.compare relation)) := by
  refine ⟨h.symm, ?_⟩
  rintro (rfl | rfl | rfl) <;> simp [Relation.symbol] at h

theorem munch_relation {relation : Relation} {first : Char} {more after : List Char}
    (hsymbol : first :: more = relation.symbol.toList)
    (hends : relation = .lt ∨ relation = .gt ∨ relation = .not → after.head? ≠ some '=')
    (pos : Nat) :
    munch pos first (more ++ after) = .ok (.operator (.compare relation), more) := by
  cases relation with
  | le | ge | eq | ne =>
      obtain ⟨rfl, rfl⟩ := List.cons.inj hsymbol
      rfl
  | lt | gt | not =>
      obtain ⟨rfl, rfl⟩ := List.cons.inj hsymbol
      have hhead : after.head? ≠ some '=' := hends (by simp)
      exact congrArg Except.ok (relationAfter_of_head_ne hhead _ _)

/-! ### Words

A run of word characters is cut off first and only then looked up, so a keyword is never
the front of a longer word.
-/

/-- A word of the language is a run of word characters. -/
theorem wordRun_of_mem_reserved {word : String} (h : word ∈ reserved) {rest : List Char}
    (hrest : ∀ c ∈ rest.head?, isWord c = false) : WordRun word.toList rest := by
  have hwords : reserved.all (fun word => word.toList.all isWord) = true := by decide
  have hfronts : reserved.all (fun word => word.toList.head?.any fun c => !c.isDigit) = true := by
    decide
  have hword := List.all_eq_true.mp (List.all_eq_true.mp hwords word h)
  have hfront := List.all_eq_true.mp hfronts word h
  cases hlist : word.toList with
  | nil => simp [hlist] at hfront
  | cons first more =>
      rw [hlist] at hword hfront
      refine ⟨List.cons_ne_nil _ _, hword, ?_, hrest⟩
      intro c hc
      obtain rfl : first = c := by simpa using hc
      simpa using hfront

theorem ofWord_of_notMem_reserved {piece : List Char} (h : String.ofList piece ∉ reserved) :
    Token.ofWord piece = .identifier := by
  simp only [reserved, List.mem_cons, List.not_mem_nil, or_false, not_or] at h
  obtain ⟨hwhere, hand, hor, hin, hcontains, htrue, hfalse⟩ := h
  simp only [Token.ofWord]

/-- A run of word characters is of the kind of its word. -/
theorem longest_ofWord {piece after : List Char} (h : WordRun piece after) :
    Longest after piece (Token.ofWord piece) := by
  have hpiece : ∀ {word : String}, String.ofList piece = word → piece = word.toList := by
    rintro word rfl
    exact String.toList_ofList.symm
  unfold Token.ofWord
  split
  case h_1 hword => exact ⟨h, hpiece hword⟩
  case h_2 hword => exact ⟨h, hpiece hword⟩
  case h_3 hword => exact ⟨h, hpiece hword⟩
  case h_4 hword => exact ⟨h, hpiece hword⟩
  case h_5 hword => exact ⟨h, hpiece hword⟩
  case h_6 hword => exact ⟨h, .inl (hpiece hword)⟩
  case h_7 hword => exact ⟨h, .inr (hpiece hword)⟩
  case h_8 hwhere hand hor hin hcontains htrue hfalse =>
    refine ⟨h, fun hmem => ?_⟩
    simp only [reserved, List.mem_cons, List.not_mem_nil, or_false] at hmem
    rcases hmem with hmem | hmem | hmem | hmem | hmem | hmem | hmem
    · exact hwhere hmem
    · exact hand hmem
    · exact hor hmem
    · exact hin hmem
    · exact hcontains hmem
    · exact htrue hmem
    · exact hfalse hmem

/-! ### One step of the scanner

Each kind of lexeme and each fault is computed once, and from here on the step is known
by what it answers.
-/

variable {pos : Nat} {first : Char} {rest : List Char}

/-- A longest lexeme is cut off, wherever it stands. -/
theorem munch_of_longest {more after : List Char} {token : Token}
    (h : Longest after (first :: more) token) (pos : Nat) :
    munch pos first (more ++ after) = .ok (token, more) := by
  have hof : ∀ {word : String}, first :: more = word.toList →
      WordRun (first :: more) after → Token.ofWord word.toList = token →
        munch pos first (more ++ after) = .ok (token, more) := by
    intro word hword hrun htoken
    rw [munch_word hrun, hword, htoken]
  cases token with
  | eof => exact absurd h id
  | comma | leftParen | rightParen | leftBracket | rightBracket =>
      obtain ⟨rfl, rfl⟩ := List.cons.inj h
      rfl
  | field =>
      obtain ⟨name, hpiece, hname, hends⟩ := h
      obtain ⟨rfl, rfl⟩ := List.cons.inj hpiece
      show Except.ok (Token.field, (more ++ after).takeWhile isWord) = _
      rw [takeWhile_stop hname hends]
  | string =>
      obtain ⟨body, hbody, hpiece⟩ := h
      obtain ⟨rfl, rfl⟩ := List.cons.inj hpiece
      simp only [munch, List.append_assoc, List.singleton_append, quotedAfter_body hbody]
  | char =>
      obtain ⟨body, hbody, hpiece⟩ := h
      obtain ⟨rfl, rfl⟩ := List.cons.inj hpiece
      simp only [munch, List.append_assoc, List.singleton_append, quotedAfter_body hbody]
  | number =>
      obtain ⟨hrun, hends⟩ := h
      obtain ⟨c, body, hfirst, hpiece, hbody⟩ := numberAfter_of_numberRun hrun
      obtain ⟨rfl, rfl⟩ := List.cons.inj hpiece
      rw [munch_number hfirst hbody]
      split
      · rename_i next hnext
        rw [if_neg (by simp [hends next hnext])]
      · rfl
  | identifier => rw [munch_word h.1, ofWord_of_notMem_reserved h.2]
  | whereKeyword => exact hof h.2 h.1 rfl
  | bool =>
      rcases h.2 with hpiece | hpiece
      · exact hof hpiece h.1 rfl
      · exact hof hpiece h.1 rfl
  | operator op =>
      cases op with
      | compare relation => exact munch_relation h.1 h.2 pos
      | and | or | isIn | contains => exact hof h.2 h.1 rfl

/-- In front of a fault the scanner stops with it. -/
theorem munch_of_fault {e : ScanError} (h : Fault pos (first :: rest) e) :
    munch pos first rest = .error e := by
  generalize hcs : first :: rest = cs at h
  cases h with
  | loneEquals hhead =>
      obtain ⟨rfl, rfl⟩ := List.cons.inj hcs
      cases rest with
      | nil => rfl
      | cons c rest =>
          have hne : c ≠ '=' := by simpa using hhead
          simp [munch, hne]
  | unterminated hmark hnone =>
      obtain ⟨rfl, rfl⟩ := List.cons.inj hcs
      have hquoted := quotedAfter_eq_none hnone
      rcases hmark with rfl | rfl
      · simp only [munch, hquoted]
      · simp only [munch, hquoted]
  | @badNumber run behind next hrun hnext =>
      obtain ⟨c, body, hfirst, rfl, hnumber⟩ := numberAfter_of_numberRun hrun
      rw [List.cons_append] at hcs
      obtain ⟨rfl, rfl⟩ := List.cons.inj hcs
      rw [munch_number hfirst hnumber]
      exact if_pos hnext
  | malformed hmarks hplus hminus hword =>
      obtain ⟨rfl, rfl⟩ := List.cons.inj hcs
      have hdigit : first.isDigit = false :=
        Bool.eq_false_iff.mpr fun hdigit => by simp [isWord_of_isDigit hdigit] at hword
      rw [munch_of_notMem_marks hmarks, if_neg (by simp [BeginsNumber, hplus, hminus, hdigit]),
        if_neg (by simp [hword])]

/-! ### Every text begins with a lexeme or a fault

The first character decides between a number, a word and a mark, and a mark decides for
itself, except that a relation may go on and quoted text has to end.
-/

theorem front_number (h : BeginsNumber first) : ∃ answer, Front pos first rest answer := by
  obtain ⟨after, hrest, hrun⟩ := exists_of_numberAfter rest h
  generalize numberAfter rest = body at hrest hrun
  by_cases hends : ∀ c ∈ after.head?, isWord c = false
  · exact ⟨_, .lexeme hrest (show Longest after _ .number from ⟨hrun, hends⟩)⟩
  · simp only [not_forall, Bool.not_eq_false] at hends
    obtain ⟨next, hnext, hword⟩ := hends
    obtain ⟨behind, rfl⟩ := List.head?_eq_some_iff.mp hnext
    have hfault := @Fault.badNumber pos _ _ _ hrun hword
    rw [List.cons_append, ← hrest] at hfault
    exact ⟨_, .fault hfault⟩

theorem front_word (hnumber : ¬BeginsNumber first) (hfirst : isWord first = true) :
    ∃ answer, Front pos first rest answer := by
  have hrun : WordRun (first :: rest.takeWhile isWord) (rest.dropWhile isWord) := by
    refine ⟨List.cons_ne_nil _ _, ?_, ?_, head_dropWhile isWord rest⟩
    · exact List.forall_mem_cons.mpr ⟨hfirst, fun c hc => List.mem_takeWhile_imp hc⟩
    · intro c hc
      obtain rfl := Option.some.inj hc
      exact Bool.eq_false_iff.mpr fun hdigit => hnumber (.inr (.inr hdigit))
  exact ⟨_, .lexeme List.takeWhile_append_dropWhile.symm (longest_ofWord hrun)⟩

theorem front_field : ∃ answer, Front pos '.' rest answer := by
  have hfield : Longest (rest.dropWhile isWord) ('.' :: rest.takeWhile isWord) .field :=
    ⟨_, rfl, fun c hc => List.mem_takeWhile_imp hc, head_dropWhile isWord rest⟩
  exact ⟨_, .lexeme List.takeWhile_append_dropWhile.symm hfield⟩

theorem front_quoted {token : Token}
    (htoken : first = '"' ∧ token = .string ∨ first = '\'' ∧ token = .char) :
    ∃ answer, Front pos first rest answer := by
  by_cases hmem : first ∈ rest
  · obtain ⟨body, after, rfl, hbody⟩ := List.eq_append_cons_of_mem hmem
    have hquoted : Longest after (first :: (body ++ [first])) token := by
      rcases htoken with ⟨rfl, rfl⟩ | ⟨rfl, rfl⟩
      · exact ⟨body, hbody, rfl⟩
      · exact ⟨body, hbody, rfl⟩
    exact ⟨_, .lexeme (List.append_cons body first after) hquoted⟩
  · exact ⟨_, .fault (.unterminated (htoken.imp And.left And.left) hmem)⟩

theorem front_relation {plain withEquals : Relation} (hplain : plain.symbol.toList = [first])
    (hequals : withEquals.symbol.toList = [first, '=']) :
    ∃ answer, Front pos first rest answer := by
  by_cases hhead : rest.head? = some '='
  · obtain ⟨after, rfl⟩ := List.head?_eq_some_iff.mp hhead
    exact ⟨_, .lexeme (List.singleton_append).symm (longest_withEquals hequals after)⟩
  · have hshort : Longest rest [first] (.operator (.compare plain)) :=
      ⟨hplain.symm, fun _ => hhead⟩
    exact ⟨_, .lexeme (List.nil_append rest).symm hshort⟩

theorem front_equals : ∃ answer, Front pos '=' rest answer := by
  by_cases hhead : rest.head? = some '='
  · obtain ⟨after, rfl⟩ := List.head?_eq_some_iff.mp hhead
    have hlong : Longest after ['=', '='] (.operator (.compare .eq)) :=
      longest_withEquals rfl after
    exact ⟨_, .lexeme (List.singleton_append).symm hlong⟩
  · exact ⟨_, .fault (.loneEquals hhead)⟩

theorem front_mark {token : Token} (h : ∀ after, Longest after [first] token) :
    ∃ answer, Front pos first rest answer :=
  ⟨_, .lexeme (List.nil_append rest).symm (h rest)⟩

theorem exists_front (pos : Nat) (first : Char) (rest : List Char) :
    ∃ answer, Front pos first rest answer := by
  by_cases hnumber : BeginsNumber first
  · exact front_number hnumber
  by_cases hword : isWord first = true
  · exact front_word hnumber hword
  by_cases hmarks : first ∈ marks
  · simp only [marks, List.mem_cons, List.not_mem_nil, or_false] at hmarks
    rcases hmarks with rfl | rfl | rfl | rfl | rfl | rfl | rfl | rfl | rfl | rfl | rfl | rfl
    · exact @front_mark pos ',' rest .comma fun _ => rfl
    · exact @front_mark pos '(' rest .leftParen fun _ => rfl
    · exact @front_mark pos ')' rest .rightParen fun _ => rfl
    · exact @front_mark pos '[' rest .leftBracket fun _ => rfl
    · exact @front_mark pos ']' rest .rightBracket fun _ => rfl
    · exact front_field
    · exact @front_relation pos '!' rest .not .ne rfl rfl
    · exact @front_relation pos '<' rest .lt .le rfl rfl
    · exact @front_relation pos '>' rest .gt .ge rfl rfl
    · exact front_equals
    · exact front_quoted (.inl ⟨rfl, rfl⟩)
    · exact front_quoted (.inr ⟨rfl, rfl⟩)
  · refine ⟨_, .fault (.malformed hmarks ?_ ?_ (Bool.eq_false_iff.mpr hword))⟩
    · exact fun hplus => hnumber (.inl hplus)
    · exact fun hminus => hnumber (.inr (.inl hminus))

/-- **One step of the scanner** answers with the longest lexeme at the front of the text, or with
the fault there. -/
theorem munch_eq_iff {answer : Except ScanError (Token × List Char)} :
    munch pos first rest = answer ↔ Front pos first rest answer := by
  have hback : ∀ {answer}, Front pos first rest answer → munch pos first rest = answer := by
    intro answer h
    cases h with
    | lexeme hrest h => rw [hrest, munch_of_longest h]
    | fault h => exact munch_of_fault h
  constructor
  · rintro rfl
    obtain ⟨answer, h⟩ := exists_front pos first rest
    rwa [hback h]
  · exact hback

theorem longest_of_munch {more : List Char} {token : Token}
    (h : munch pos first rest = .ok (token, more)) :
    ∃ after, rest = more ++ after ∧ Longest after (first :: more) token := by
  cases munch_eq_iff.mp h with
  | lexeme hrest hlongest => exact ⟨_, hrest, hlongest⟩

theorem fault_of_munch {e : ScanError} (h : munch pos first rest = .error e) :
    Fault pos (first :: rest) e := by
  cases munch_eq_iff.mp h with
  | fault hfault => exact hfault

/-! ### What every longest lexeme is

A longest lexeme asks nothing of what follows it but that its first character does not go on with
it, so it is one in front of anything else that stops it. -/

variable {piece after : List Char} {token : Token}

theorem Longest.ne_eof (h : Longest after piece token) : token ≠ .eof := by
  rintro rfl
  exact h

theorem Longest.ne_nil (h : Longest after piece token) : piece ≠ [] := by
  rintro rfl
  cases token with
  | eof => exact h
  | comma | leftParen | rightParen | leftBracket | rightBracket => cases h
  | field =>
      obtain ⟨name, hpiece, -⟩ := h
      cases hpiece
  | string | char =>
      obtain ⟨body, -, hpiece⟩ := h
      cases hpiece
  | number =>
      obtain ⟨first, body, -, hpiece, -⟩ := numberAfter_of_numberRun h.1
      cases hpiece
  | identifier | bool | whereKeyword => exact h.1.ne_nil rfl
  | operator op =>
      cases op with
      | compare relation => cases relation <;> cases h.1
      | and | or | isIn | contains => exact h.1.ne_nil rfl

theorem Longest.isBlank_eq_false {more : List Char} (h : Longest after (first :: more) token) :
    isBlank first = false := by
  by_contra hblank
  have hblank : isBlank first = true := by simpa using hblank
  have hall : ('+' :: '-' :: marks).all (fun c => !isBlank c) = true := by decide
  have hother := List.all_eq_true.mp hall
  have hne : ∀ c ∈ '+' :: '-' :: marks, first ≠ c := by
    intro c hc heq
    have hnot := hother c hc
    rw [← heq, hblank] at hnot
    exact absurd hnot (by decide)
  have hfault : Fault 0 (first :: (more ++ after)) (.malformed first 0) := by
    refine .malformed (fun hmem => ?_) (hne '+' (by simp)) (hne '-' (by simp))
      (isWord_of_isBlank hblank)
    exact hne first (List.mem_cons_of_mem _ (List.mem_cons_of_mem _ hmem)) rfl
  have hmunch := munch_of_longest h 0
  rw [munch_of_fault hfault] at hmunch
  cases hmunch

/-- What follows a lexeme matters for its first character only. -/
theorem Longest.congr {after' : List Char} (h : Longest after piece token)
    (hafter : ∀ c ∈ after'.head?,
      c ∈ after.head? ∨ isWord c = false ∧ c ≠ '.' ∧ c ≠ '=') : Longest after' piece token := by
  have hword : (∀ c ∈ after.head?, isWord c = false) → ∀ c ∈ after'.head?, isWord c = false :=
    fun hends c hc => (hafter c hc).elim (hends c) And.left
  have hdigit : ∀ c, isWord c = false → c.isDigit = false := by
    intro c hc
    by_contra hdigit
    exact absurd ((isWord_of_isDigit (by simpa using hdigit)).symm.trans hc) (by decide)
  have hrun : WordRun piece after → WordRun piece after' := fun h => { h with ends := hword h.ends }
  cases token with
  | eof => exact h
  | comma | leftParen | rightParen | leftBracket | rightBracket | string | char => exact h
  | field =>
      obtain ⟨name, hpiece, hname, hends⟩ := h
      exact ⟨name, hpiece, hname, hword hends⟩
  | identifier | bool | whereKeyword => exact ⟨hrun h.1, h.2⟩
  | number =>
      refine ⟨?_, hword h.2⟩
      cases h.1 with
      | whole hsign hne hdigits hends =>
          refine .whole hsign hne hdigits fun c hc => ?_
          exact (hafter c hc).elim (hends c) fun hstop => ⟨hdigit c hstop.1, hstop.2.1⟩
      | dotted hsign hne hdigits hfraction hends =>
          refine .dotted hsign hne hdigits hfraction fun c hc => ?_
          exact (hafter c hc).elim (hends c) fun hstop => hdigit c hstop.1
  | operator op =>
      cases op with
      | compare relation =>
          refine ⟨h.1, fun hshort hhead => ?_⟩
          rcases hafter '=' hhead with hsame | hstop
          · exact h.2 hshort hsame
          · exact hstop.2.2 rfl
      | and | or | isIn | contains => exact ⟨hrun h.1, h.2⟩

/-- A lexeme is one in front of anything that stops it. -/
theorem Longest.of_stops {tail : List Char} (h : Longest after piece token) (htail : Stops tail) :
    Longest tail piece token :=
  h.congr fun c hc => .inr (htail c hc)

/-- The end of a text stops a lexeme, and so does what stands there instead. -/
theorem Longest.append {tail : List Char} (h : Longest after piece token) (htail : Stops tail) :
    Longest (after ++ tail) piece token := by
  refine h.congr fun c hc => ?_
  cases after with
  | nil => exact .inr (htail c hc)
  | cons next after => exact .inl hc

theorem Fault.ne_nil {cs : List Char} {e : ScanError} (h : Fault pos cs e) : cs ≠ [] := by
  cases h <;> simp

theorem Fault.pos_eq {cs : List Char} {e : ScanError} (h : Fault pos cs e) : e.pos = pos := by
  cases h <;> rfl

end Lexeme

end FieldQuery

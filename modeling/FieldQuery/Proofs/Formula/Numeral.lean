/-
Comparisons with numbers.

An integer that has a place in 64 bits is compared as the integer that its digits stand
for, and a number with a dot and a digit is never at fault.  What is left has no value,
and such a number is the error wherever the reader gets to it, `parse_of_valueless`, at
the position where it stands; no other number ever is, `valueless_of_badNumber`.

A number at fault stops the reading at once, so nothing of the text behind it matters,
not even whether it can be cut into lexemes.  In front of it the reader has to have got
that far: this is what the steps of a path and an operator are for, and on the left side
there is nothing in front.
-/
import FieldQuery.Proofs.Formula.Comparison
import FieldQuery.Proofs.Reading.Located
import FieldQuery.Proofs.Tree.Numeral

namespace FieldQuery

/-! ### Numbers in front of what stops them

A dot without a sign and a digit in front of it does not begin a number; it begins a
field.  So text that looks like a number may be a path, and then it is not at fault
either.
-/

namespace Text

variable {mark digits fraction after : List Char}

theorem NumberRun.of_dotted (hmark : IsSign mark) (hne : mark ++ digits ≠ [])
    (hdigits : ∀ c ∈ digits, c.isDigit = true) (hfraction : ∀ c ∈ fraction, c.isDigit = true)
    (hafter : Stops after) : NumberRun after (mark ++ digits ++ '.' :: fraction) :=
  .dotted hmark hne hdigits hfraction hafter.not_digit

end Text

namespace Condition

/-- A number with a value is one operand. -/
theorem single_number {run : List Char} {t : Tree} (h : Text.NumberRun [] run)
    (ht : Tree.number? run = some t) : Single (String.ofList run) t := by
  have hlongest : Lexeme.Longest [] run .number := ⟨h, by simp⟩
  refine Single.of_reads (Lexeme.reads_lexeme hlongest) rfl fun pos => ?_
  show Tree.number? (String.ofList run).toList = some t
  rw [String.toList_ofList, ht]

/-- With a dot and a digit the characters are an operand: a number, or without a sign and without a
digit in front of the dot a path. -/
theorem exists_single_dotted {mark digits fraction : List Char} (hmark : Text.IsSign mark)
    (hdigits : ∀ c ∈ digits, c.isDigit = true) (hfraction : ∀ c ∈ fraction, c.isDigit = true)
    (hne : digits ++ fraction ≠ []) :
    ∃ t, Single (String.ofList (mark ++ digits ++ '.' :: fraction)) t := by
  by_cases hfirst : mark ++ digits = []
  · obtain ⟨rfl, rfl⟩ := List.append_eq_nil_iff.mp hfirst
    have hkey : String.ofList fraction ≠ "" := by simpa using hne
    have hword : ∀ c ∈ (String.ofList fraction).toList, Text.isWord c = true := by
      rw [String.toList_ofList]
      exact fun c hc => Text.isWord_of_isDigit (hfraction c hc)
    have hsingle := KeyPath.single ⟨⟨String.ofList fraction, hkey, hword⟩, []⟩
    have htext : KeyPath.text ⟨⟨String.ofList fraction, hkey, hword⟩, []⟩ =
        String.ofList ([] ++ [] ++ '.' :: fraction) := by
      rw [← String.toList_inj]
      simp [KeyPath.text, KeyPath.keys, Key.pathText_cons]
    exact ⟨_, htext ▸ hsingle⟩
  · obtain ⟨x, hx⟩ := Tree.exists_float? (mark == ['-']) hdigits hfraction hne
    refine ⟨.float x, single_number (.of_dotted hmark hfirst hdigits hfraction Text.stops_nil) ?_⟩
    rw [Tree.number?_dotted hmark hdigits, hx]

theorem State.step_valueless (s : State) {l : Lexeme} (htoken : l.token = .number)
    (hnone : l.literal? = none) :
    s.step (.lexeme l) = .error (.dropping (.badNumber l.text l.pos)) := by
  unfold State.step
  cases s.list? with
  | none => simp only [stepLexeme, htoken, stepLiteral, hnone]
  | some literals => simp only [stepList, htoken, hnone]

end Condition

namespace Query

open Condition

/-! ### Numbers without a value

Every state of the reader refuses such a number in the same way, whatever it was waiting
for.
-/

/-- A number without a value is the error behind lexemes that all make a step. -/
theorem parse_of_steps {text : String} {front ls : List Lexeme} {w l : Lexeme} {s : State}
    {behind : List (Except ScanError Lexeme)}
    (hscan : Lexeme.scan text = front.map .ok ++ .ok w :: (ls.map .ok ++ .ok l :: behind))
    (hfree : ∀ l ∈ front, l.token ≠ .whereKeyword ∧ l.token.isGrouping = false)
    (hw : w.token = .whereKeyword) (hsteps : (State.start 0).steps (Phrase.group ls) = some s)
    (htoken : l.token = .number) (hnone : l.literal? = none) :
    parse text = .error (.badNumber l.text l.pos) := by
  have heof : ∀ l ∈ ls, l.token ≠ .eof := by
    have hall : Lexeme.scan text = (front ++ w :: ls).map .ok ++ .ok l :: behind := by
      rw [hscan, List.map_append, List.map_cons, List.append_assoc, List.cons_append]
    exact fun l hl => Lexeme.ne_eof_of_scan hall l (by simp [hl])
  rw [parse_of_where hscan hfree hw,
    Phrase.ofLexemes_append heof (by simp [htoken]) (by simp [htoken])]
  refine nextCondition_of_error _ _ ?_
  rw [run_of_steps hsteps, Condition.run, s.step_valueless htoken hnone]

/-- A number without a value is the error where the reader gets to it. -/
theorem parse_of_valueless {cs run after : List Char} {words : List (Token × String)}
    (hreads : ∀ rest, Lexeme.Reads cs rest words)
    (hsteps : ∀ ls : List Lexeme, ls.map Lexeme.word = words →
      ∃ s, (State.start 0).steps (Phrase.group ls) = some s)
    (hrun : Text.NumberRun after run) (hends : ∀ c ∈ after.head?, Text.isWord c = false)
    (hvalue : Tree.Valueless run) :
    parse (String.ofList (". where ".toList ++ cs ++ (run ++ after))) =
      .error (.badNumber (String.ofList run) (Text.byteLength (". where ".toList ++ cs))) := by
  obtain ⟨all, hwords, hscan⟩ := reads_whole (hreads (run ++ after)) 0
  obtain ⟨root, rest, rfl, hroot, hrest⟩ := List.map_eq_cons_iff.mp hwords
  obtain ⟨w, ls, rfl, hw, hls⟩ := List.map_eq_cons_iff.mp hrest
  obtain ⟨l, hl⟩ : ∃ l : Lexeme, l = ⟨.number, Text.byteLength (". where ".toList ++ cs),
      String.ofList run⟩ := ⟨_, rfl⟩
  obtain ⟨behind, hbehind⟩ : ∃ behind, behind = Lexeme.scanFrom
      (Text.byteLength (". where ".toList ++ cs) + Text.byteLength run) after := ⟨_, rfl⟩
  have hlongest : Lexeme.Longest after run .number := ⟨hrun, hends⟩
  rw [Nat.zero_add, Lexeme.scanFrom_lexeme hlongest, ← hl, ← hbehind] at hscan
  have htext : Lexeme.scan (String.ofList (". where ".toList ++ cs ++ (run ++ after))) =
      [root].map .ok ++ .ok w :: (ls.map .ok ++ .ok l :: behind) := by
    rw [Lexeme.scan, String.toList_ofList, hscan]
    rfl
  obtain ⟨s, hs⟩ := hsteps ls hls
  have hroot := Lexeme.token_of_word hroot
  have hnone : l.literal? = none := by
    rw [hl]
    show Tree.number? (String.ofList run).toList = none
    rw [String.toList_ofList, hvalue.number?_eq_none]
  have hparse := parse_of_steps htext (by simp [hroot, Token.isGrouping])
    (Lexeme.token_of_word hw) hs (by rw [hl]) hnone
  rwa [hl] at hparse

/-- The text is the fault of a comparison on either of its sides, where it stands. -/
def Faulty (p : KeyPath) (relation : Relation) (t : String) : Prop :=
  parse (comparing p.text relation t) =
      .error (.badNumber t (comparing p.text relation "").utf8ByteSize) ∧
    parse (comparing t relation p.text) = .error (.badNumber t ". where ".utf8ByteSize)

/-- The path and the operator in front of the right side make their steps. -/
theorem steps_of_left (p : KeyPath) (relation : Relation) {ls : List Lexeme}
    (h : ls.map Lexeme.word = (Key.fields p.keys).map (Prod.mk Token.field) ++
      [(.operator (.compare relation), relation.symbol)]) :
    ∃ s, (State.start 0).steps (Phrase.group ls) = some s := by
  obtain ⟨side, rest, rfl, hside, hrest⟩ := List.map_eq_append_iff.mp h
  obtain ⟨pos, rfl⟩ := Lexeme.exists_of_word hrest
  have hne : Key.fields p.keys ≠ [] := List.cons_ne_nil _ _
  obtain ⟨first, more, rfl, hfields, -⟩ := Phrase.fields_of_words hne hside
  have hgroup : ∀ l : Lexeme, l.token = .operator (.compare relation) →
      Phrase.group (first :: more ++ [l]) = [.path first more, .lexeme l] := by
    intro l hl
    rw [Phrase.group_append (fun l hl => by simp [hfields l hl]) (.inr (by simp [hl])),
      Phrase.group_fields first more hfields, Phrase.group_other (by simp [hl]) (by simp [hl])]
    rfl
  rw [hgroup _ rfl]
  exact ⟨_, State.steps_cons (State.step_path rfl first more)
    (State.steps_cons (State.step_operator rfl rfl rfl (show 0 < maxOperators by decide)) rfl)⟩

theorem faulty_of_valueless (p : KeyPath) (relation : Relation) {cs : List Char}
    (hcs : ∀ after, Text.Stops after → Text.NumberRun after cs) (hvalue : Tree.Valueless cs) :
    Faulty p relation (String.ofList cs) := by
  constructor
  · have hreads : ∀ rest, Lexeme.Reads
        (p.text.toList ++ [' '] ++ (relation.symbol.toList ++ [' '])) rest
        ((Key.fields p.keys).map (Prod.mk Token.field) ++
          [(.operator (.compare relation), relation.symbol)]) := fun rest =>
      (Key.reads_pathText p.keys (Text.stops_space _).not_word).spaced.append
        (Lexeme.reads_relation relation (Text.stops_space rest)).spaced
    have hparse := parse_of_valueless hreads (fun ls => steps_of_left p relation)
      (hcs [] Text.stops_nil) (by simp) hvalue
    rw [Text.byteLength_eq_utf8ByteSize] at hparse
    rw [comparing_eq, comparing_eq, @String.toList_ofList cs]
    generalize ". where ".toList = lead at hparse ⊢
    simpa only [List.append_assoc, List.cons_append, List.nil_append, List.append_nil,
      String.toList_empty]
      using hparse
  · have hsteps : ∀ ls : List Lexeme, ls.map Lexeme.word = [] →
        ∃ s, (State.start 0).steps (Phrase.group ls) = some s := by
      intro ls hls
      rw [List.map_eq_nil_iff.mp hls]
      exact ⟨_, rfl⟩
    have hstops := Text.stops_space (relation.symbol.toList ++ ' ' :: p.text.toList)
    have hparse := parse_of_valueless Lexeme.reads_nil hsteps (hcs _ hstops) hstops.not_word hvalue
    rw [List.append_nil, Text.byteLength_eq_utf8ByteSize, String.ofList_toList] at hparse
    rw [comparing_eq, @String.toList_ofList cs]
    exact hparse

/-- Only a number without a value is at fault, whatever the text. -/
theorem valueless_of_badNumber {text t : String} {pos : Nat}
    (h : parse text = .error (.badNumber t pos)) : Tree.Valueless t.toList := by
  cases located_of_parse h with
  | @badNumber l hl htoken hnone =>
      obtain ⟨before, after, -, -, hlongest⟩ :=
        Lexeme.longest_of_mem_scanFrom 0 text.toList l hl (by simp [htoken])
      rw [htoken] at hlongest
      rw [Lexeme.literal?, htoken] at hnone
      exact Tree.valueless_of_number? hlongest.1 hnone

/-! ### Comparisons of an integer

A sign, digits and what they stand for: the integer of a literal does not depend on the
zeros that it begins with.
-/

theorem givesIf_integer (p : KeyPath) (relation : Relation) {cs : List Char} {i m : Int64}
    (hcs : Text.NumberRun [] cs) (hi : Tree.number? cs = some (.integer i))
    {entries : List (String × Value)} {d : Document}
    (hd : Document.ofValue? (.object entries) = some d)
    (hm : d.get? p.text = some (.integer m)) (merge : Merge) :
    GivesIf merge (comparing p.text relation (String.ofList cs)) (.object entries)
      (relation.Orders m.toInt i.toInt) := by
  refine (givesIf_comparing p (single_number hcs hi) relation hd hm rfl merge).congr ?_
  simp [Value.compare?, Relation.accepts_compare_iff]

/--
**Integer literals are exact over all of 64 bits and at fault outside.**  A sign or nothing and one
or more digits, needless zeros among them, are compared with an integer as the integer that they
stand for, if that has a place in 64 bits; if it has none, the literal is the error, with its text
and where it stands.  So is a sign without a digit, with or without a dot.  With a dot and a digit
no literal is at fault, and in no text at all is a number at fault that is not one of those.
-/
theorem run_numeral (p : KeyPath) (relation : Relation) {mark : List Char}
    (hmark : Text.IsSign mark) {entries : List (String × Value)} {d : Document} {m : Int64}
    (hd : Document.ofValue? (.object entries) = some d)
    (hm : d.get? p.text = some (.integer m)) (merge : Merge) :
    (∀ digits : List Char, digits ≠ [] → (∀ c ∈ digits, c.isDigit = true) →
      (IsInt64 (Digits.toInt (mark == ['-']) digits) →
        GivesIf merge (comparing p.text relation (String.ofList (mark ++ digits))) (.object entries)
          (relation.Orders m.toInt (Digits.toInt (mark == ['-']) digits))) ∧
      (¬IsInt64 (Digits.toInt (mark == ['-']) digits) →
        Faulty p relation (String.ofList (mark ++ digits)))) ∧
    (mark ≠ [] → Faulty p relation (String.ofList mark) ∧
      Faulty p relation (String.ofList (mark ++ ['.']))) ∧
    (∀ digits fraction : List Char, (∀ c ∈ digits, c.isDigit = true) →
      (∀ c ∈ fraction, c.isDigit = true) → digits ++ fraction ≠ [] → ∃ first second,
        run merge (comparing p.text relation (String.ofList (mark ++ digits ++ '.' :: fraction)))
          (.object entries) = .ok first ∧
        run merge (comparing (String.ofList (mark ++ digits ++ '.' :: fraction)) relation p.text)
          (.object entries) = .ok second) ∧
    ∀ text t pos, parse text = .error (.badNumber t pos) → Tree.Valueless t.toList := by
  refine ⟨?_, ?_, ?_, ?_⟩
  · intro digits hne hdigits
    have hsome : mark ++ digits ≠ [] := List.append_ne_nil_of_right_ne_nil mark hne
    constructor
    · intro hrange
      have hrun := Text.NumberRun.of_whole hmark hsome hdigits Text.stops_nil
      obtain ⟨i, hi, hvalue⟩ := Tree.exists_number?_whole hmark hdigits hne hrange
      rw [← hvalue]
      exact givesIf_integer p relation hrun hi hd hm merge
    · intro hrange
      refine faulty_of_valueless p relation ?_ (.outside hmark hdigits hrange)
      intro after hafter
      exact .of_whole hmark hsome hdigits hafter
  · intro hne
    constructor
    · refine faulty_of_valueless p relation ?_ (.sign hmark)
      intro after hafter
      have hrun := @Text.NumberRun.of_whole mark [] after hmark (by simpa using hne) (by simp)
        hafter
      rwa [List.append_nil] at hrun
    · refine faulty_of_valueless p relation ?_ (.signDot hmark)
      intro after hafter
      have hrun := @Text.NumberRun.of_dotted mark [] [] after hmark (by simpa using hne) (by simp)
        (by simp) hafter
      rwa [List.append_nil] at hrun
  · intro digits fraction hdigits hfraction hne
    obtain ⟨t, ht⟩ := exists_single_dotted hmark hdigits hfraction hne
    exact ⟨_, _, run_comparing p.single ht relation hd merge,
      run_comparing ht p.single relation hd merge⟩
  · intro text t pos
    exact valueless_of_badNumber

/-- Needless zeros do not count, and one below the least integer is at fault. -/
theorem run_numeral_least :
    run .overwrite ". where .a < -007" (.object [("a", .integer (-8))]) =
        .ok (.selected (.object [("a", .integer (-8))])) ∧
      parse ". where .a < -9223372036854775809" =
        .error (.badNumber "-9223372036854775809" 13) := by
  have hkey : ∀ c ∈ "a".toList, Text.isWord c = true := List.all_eq_true.mp (by decide)
  have hrun := @run_numeral ⟨⟨"a", by decide, hkey⟩, []⟩ .lt ['-'] (.inr (.inr rfl))
    [("a", .integer (-8))] ⟨.ofFields _, _, rfl⟩ (-8) rfl rfl .overwrite
  obtain ⟨hwhole, -⟩ := hrun
  constructor
  · exact ((hwhole "007".toList (by decide) (List.all_eq_true.mp (by decide))).1
      (by unfold IsInt64; decide)).1 (by unfold Relation.Orders; decide)
  · exact ((hwhole "9223372036854775809".toList (by decide)
      (List.all_eq_true.mp (by decide))).2 (by unfold IsInt64; decide)).1

end Query

end FieldQuery

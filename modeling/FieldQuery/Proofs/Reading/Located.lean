/-
Errors point at the text.

An error names a lexeme that has just been met or one that was met before: the operator
that still waits for its operand, the parenthesis with which a group began, the `where`
that the condition follows.  `ParseError.Located` says for every error which item of the
text that is, and `parse_error_located` that every error is located, at a boundary
between characters and with the text it reports standing there.

The second kind needs a memory.  A reader that waits for an operand has only the
position of the operator, so that there was such an operator has to be carried through
the phrases; this is `State.Known`, every move keeps it, and whatever is refused takes
what it reports from the phrase at hand or from what is known.

Where the items stand is not a matter of the reader.  Scanning is faithful, so that an
item is found in the text where it says, and the last section only puts the two
together.

Not claimed: that there is nothing wrong with the text in front of the error.
-/
import FieldQuery.Proofs.Condition.Parsed
import FieldQuery.Proofs.Condition.Refused
import FieldQuery.Proofs.Scan.Longest
import Mathlib

namespace FieldQuery

/-- The text that the error says to stand at its position. -/
def ScanError.reported : ScanError → String
  | .malformed c _ => String.singleton c
  | .loneEquals _ => "="
  | .badNumber text _ => text
  | .unterminated _ => ""

/-- The text that the error says to stand at its position. -/
def ParseError.reported : ParseError → String
  | .scan error => error.reported
  | .unexpected l => l.text
  | .badNumber text _ => text
  | .incomplete _ | .unclosedParen _ | .tooDeep _ | .invalidCondition _ => ""

/-- What follows the first `where` among items. -/
structure BehindWhere (items : List (Except ScanError Lexeme)) (w : Lexeme)
    (behind : List (Except ScanError Lexeme)) : Prop where
  split : ∃ front : List Lexeme, items = front.map .ok ++ .ok w :: behind ∧
    ∀ l ∈ front, l.token ≠ .whereKeyword
  keyword : w.token = .whereKeyword

theorem BehindWhere.subset {items behind : List (Except ScanError Lexeme)} {w : Lexeme}
    (h : BehindWhere items w behind) : behind ⊆ items := by
  obtain ⟨front, rfl, -⟩ := h.split
  exact fun item hitem => List.mem_append_right _ (List.mem_cons_of_mem _ hitem)

theorem BehindWhere.mem {items behind : List (Except ScanError Lexeme)} {w : Lexeme}
    (h : BehindWhere items w behind) : .ok w ∈ items := by
  obtain ⟨front, rfl, -⟩ := h.split
  exact List.mem_append_right _ List.mem_cons_self

/-- The item among these at which an error points, and what the error says of it. -/
inductive ParseError.Located (items : List (Except ScanError Lexeme)) : ParseError → Prop
  | scan {e : ScanError} (h : .error e ∈ items) : Located items (.scan e)
  | unexpected {l : Lexeme} (h : .ok l ∈ items) : Located items (.unexpected l)
  | badNumber {l : Lexeme} (h : .ok l ∈ items) (htoken : l.token = .number)
      (hnone : l.literal? = none) : Located items (.badNumber l.text l.pos)
  /-- The operator stands behind the first `where`. -/
  | incomplete {w l : Lexeme} {op : Operator} {behind : List (Except ScanError Lexeme)}
      (hwhere : BehindWhere items w behind) (h : .ok l ∈ behind)
      (htoken : l.token = .operator op) : Located items (.incomplete l.pos)
  | unclosedParen {l : Lexeme} (h : .ok l ∈ items) (htoken : l.token = .eof) :
      Located items (.unclosedParen l.pos)
  | tooDeep {l : Lexeme} (h : .ok l ∈ items)
      (htoken : l.token = .leftParen ∨ ∃ op, l.token = .operator op) :
      Located items (.tooDeep l.pos)
  | invalidCondition {w : Lexeme} {behind : List (Except ScanError Lexeme)}
      (hwhere : BehindWhere items w behind) : Located items (.invalidCondition w.pos)

namespace Condition

open ParseError (Located)

/-! ### What the reader remembers

A waiting operator and an open parenthesis are all that is taken out of a phrase and
named later.  An operand is not: a tree has no position, and no error points at it.
-/

section

variable {behind : List (Except ScanError Lexeme)}

/-- The operator that waits for an operand is one of the items. -/
def Progress.Known (behind : List (Except ScanError Lexeme)) : Progress → Prop
  | .awaiting op _ pos => ∃ text, .ok ⟨.operator op, pos, text⟩ ∈ behind
  | _ => True

/-- Every operator that waits and every parenthesis that is open is one of the items. -/
structure State.Known (behind : List (Except ScanError Lexeme)) (s : State) : Prop where
  progress : s.progress.Known behind
  groups : ∀ group ∈ s.groups, .ok group.opening ∈ behind ∧ group.outer.Known behind

theorem State.known_start (operators : Nat) : (start operators).Known behind :=
  ⟨trivial, by simp [start]⟩

theorem Progress.known_filled (p : Progress) (operand : Tree) :
    (p.filled operand).Known behind := by
  unfold filled
  split <;> trivial

theorem Progress.known_awaiting {l : Lexeme} {op : Operator} (left? : Option Tree)
    (h : .ok l ∈ behind) (htoken : l.token = .operator op) :
    (awaiting op left? l.pos).Known behind :=
  ⟨l.text, by rwa [← htoken]⟩

/-- Every move remembers only what it has read. -/
theorem known_of_move {s s' : State} {p : Phrase} (h : Move s p s')
    (hp : ∀ item ∈ p.items, item ∈ behind) (hs : s.Known behind) : s'.Known behind := by
  have hrest : ∀ {group : Group} {groups : List Group}, s.groups = group :: groups →
      group.outer.Known behind ∧
        ∀ g ∈ groups, .ok g.opening ∈ behind ∧ g.outer.Known behind := by
    intro group groups hgroups
    obtain ⟨hgroup, hgroups⟩ := List.forall_mem_cons.mp (hgroups ▸ hs.groups)
    exact ⟨hgroup.2, hgroups⟩
  cases h with
  | path => exact ⟨Progress.known_filled _ _, hs.groups⟩
  | literal => exact ⟨Progress.known_filled _ _, hs.groups⟩
  | operator _ htoken _ _ =>
      exact ⟨Progress.known_awaiting _ (hp _ List.mem_cons_self) htoken, hs.groups⟩
  | prefixOperator _ htoken _ _ =>
      exact ⟨Progress.known_awaiting _ (hp _ List.mem_cons_self) htoken, hs.groups⟩
  | opening =>
      exact ⟨trivial, List.forall_mem_cons.mpr ⟨⟨hp _ List.mem_cons_self, hs.progress⟩, hs.groups⟩⟩
  | closingEmpty _ _ hgroups _ => exact ⟨(hrest hgroups).1, (hrest hgroups).2⟩
  | closingTree _ _ hgroups _ _ => exact ⟨Progress.known_filled _ _, (hrest hgroups).2⟩
  | openingList => exact ⟨hs.progress, hs.groups⟩
  | comma => exact hs
  | listed => exact ⟨hs.progress, hs.groups⟩
  | closingList => exact ⟨Progress.known_filled _ _, hs.groups⟩

end

/-! ### What is refused

One lemma for each function that can refuse, and each says that what is refused is
located if what the reader remembers is known.  The items are those of the text and
`behind` those that follow the first `where`, because the operator that lacks an operand
is always one of these.
-/

section

variable {items behind : List (Except ScanError Lexeme)} {w : Lexeme}
  (hwhere : BehindWhere items w behind)

include hwhere

theorem Progress.located_of_awaiting {op : Operator} {left? : Option Tree} {pos : Nat}
    (h : (awaiting op left? pos).Known behind) : Located items (.incomplete pos) := by
  obtain ⟨text, hop⟩ := h
  exact .incomplete hwhere hop rfl

theorem Progress.located_of_place {p : Progress} {operand : Tree} {first : Lexeme} {e : ParseError}
    (hp : p.Known behind) (hfirst : .ok first ∈ behind)
    (h : p.place operand first = .error e) : Located items e := by
  cases p with
  | empty => simp [place] at h
  | complete tree =>
      obtain rfl := Except.error.inj h
      exact .unexpected (hwhere.subset hfirst)
  | awaiting op left? pos =>
      cases left? with
      | some left => simp [place] at h
      | none =>
          obtain rfl := Except.error.inj h
          exact located_of_awaiting hwhere hp

theorem Progress.located_of_result {p : Progress} {e : ParseError} (hp : p.Known behind)
    (h : p.result = .error e) : Located items e := by
  cases p with
  | empty => simp [result] at h
  | complete tree => simp [result] at h
  | awaiting op left? pos =>
      obtain rfl := Except.error.inj h
      exact located_of_awaiting hwhere hp

namespace State

variable {s : State} {refusal : Refusal} {l : Lexeme} (hs : s.Known behind)
  (hl : .ok l ∈ behind)

include hl

omit hwhere in
/-- A literal that stands for nothing is a number. -/
theorem located_of_literal (hsubset : behind ⊆ items) (htoken : l.token.isLiteral = true)
    (h : l.literal? = none) : Located items (.badNumber l.text l.pos) := by
  refine .badNumber (hsubset hl) ?_ h
  cases hkind : l.token <;> simp_all [Lexeme.literal?, Token.isLiteral]

include hs

theorem located_of_place {operand : Tree} (h : s.place operand l = .error refusal) :
    Located items refusal.error := by
  unfold State.place at h
  split at h
  · simp at h
  · rename_i e he
    obtain rfl := Except.error.inj h
    exact Progress.located_of_place hwhere hs.progress hl he

theorem located_of_stepOperator {op : Operator} (htoken : l.token = .operator op)
    (h : s.stepOperator op l.pos = .error refusal) : Located items refusal.error := by
  unfold stepOperator at h
  split at h
  · obtain rfl := Except.error.inj h
    exact .tooDeep (hwhere.subset hl) (.inr ⟨op, htoken⟩)
  · split at h
    · simp at h
    · simp at h
    · rename_i waiting hawaiting
      obtain rfl := Except.error.inj h
      exact Progress.located_of_awaiting hwhere (hawaiting ▸ hs.progress)

omit hs in
theorem located_of_openGroup (htoken : l.token = .leftParen)
    (h : s.openGroup l = .error refusal) : Located items refusal.error := by
  unfold openGroup at h
  split at h
  · obtain rfl := Except.error.inj h
    exact .tooDeep (hwhere.subset hl) (.inl htoken)
  · simp at h

theorem located_of_closeGroup (h : s.closeGroup l = .error refusal) :
    Located items refusal.error := by
  unfold closeGroup at h
  split at h
  · obtain rfl := Except.error.inj h
    exact .unexpected (hwhere.subset hl)
  · rename_i group groups hgroups
    obtain ⟨⟨hopening, houter⟩, hrest⟩ := List.forall_mem_cons.mp (hgroups ▸ hs.groups)
    split at h
    · rename_i e he
      obtain rfl := Except.error.inj h
      exact Progress.located_of_result hwhere hs.progress he
    · simp at h
    · exact located_of_place hwhere ⟨houter, hrest⟩ hopening h

omit hs in
theorem located_of_openList (h : s.openList l = .error refusal) :
    Located items refusal.error := by
  unfold openList at h
  split at h
  · simp at h
  · obtain rfl := Except.error.inj h
    exact .unexpected (hwhere.subset hl)

theorem located_of_stepLiteral (htoken : l.token.isLiteral = true)
    (h : s.stepLiteral l = .error refusal) : Located items refusal.error := by
  unfold stepLiteral at h
  split at h
  · exact located_of_place hwhere hs hl h
  · rename_i hnone
    obtain rfl := Except.error.inj h
    exact located_of_literal hl hwhere.subset htoken hnone

theorem located_of_stepLexeme (h : s.stepLexeme l = .error refusal) :
    Located items refusal.error := by
  unfold stepLexeme at h
  split at h
  · rename_i op htoken
    exact located_of_stepOperator hwhere hs hl htoken h
  · rename_i htoken
    exact located_of_openGroup hwhere hl htoken h
  · exact located_of_closeGroup hwhere hs hl h
  · exact located_of_openList hwhere hl h
  case h_5 htoken | h_6 htoken | h_7 htoken | h_8 htoken =>
    exact located_of_stepLiteral hwhere hs hl (by simp [htoken, Token.isLiteral]) h
  · obtain rfl := Except.error.inj h
    exact .unexpected (hwhere.subset hl)

theorem located_of_stepList {literals : List Tree} (h : s.stepList literals l = .error refusal) :
    Located items refusal.error := by
  unfold stepList at h
  split at h
  · simp at h
  · exact located_of_place (s := { s with list? := none }) hwhere ⟨hs.progress, hs.groups⟩ hl h
  case h_3 htoken | h_4 htoken | h_5 htoken | h_6 htoken =>
    split at h
    · simp at h
    · rename_i hnone
      obtain rfl := Except.error.inj h
      exact located_of_literal hl hwhere.subset (by simp [htoken, Token.isLiteral]) hnone
  · obtain rfl := Except.error.inj h
    exact .unexpected (hwhere.subset hl)

omit hl in
/-- A phrase is refused for something in it or something that is remembered. -/
theorem located_of_step {p : Phrase} (hp : ∀ item ∈ p.items, item ∈ behind)
    (h : s.step p = .error refusal) : Located items refusal.error := by
  unfold State.step at h
  split at h
  · exact located_of_place hwhere hs (hp _ List.mem_cons_self) h
  · exact located_of_stepLexeme hwhere hs (hp _ List.mem_cons_self) h
  · obtain rfl := Except.error.inj h
    exact .unexpected (hwhere.subset (hp _ List.mem_cons_self))
  · obtain rfl := Except.error.inj h
    exact .unexpected (hwhere.subset (hp _ List.mem_cons_self))
  · exact located_of_stepList hwhere hs (hp _ List.mem_cons_self) h
  · obtain rfl := Except.error.inj h
    exact .scan (hwhere.subset (hp _ (by simp [Phrase.items])))

omit hl in
/-- At the end the error is about the end or about something that is remembered. -/
theorem located_of_result {size : Nat} {e : ParseError} (hend : .ok (Lexeme.atEnd size) ∈ behind)
    (h : s.result size = .error e) : Located items e := by
  unfold result at h
  split at h
  · obtain rfl := Except.error.inj h
    exact .unexpected (hwhere.subset hend)
  · split at h
    · exact Progress.located_of_result hwhere hs.progress h
    · obtain rfl := Except.error.inj h
      exact .unclosedParen (l := Lexeme.atEnd size) (hwhere.subset hend) rfl

end State

/-- Every error of a condition points at one of its items, if these end with the end of the text
or where it cannot be cut. -/
theorem located_of_run {size : Nat} {e : ParseError} {phrases : List Phrase} {s : State}
    (hs : s.Known behind) (hphrases : ∀ p ∈ phrases, ∀ item ∈ p.items, item ∈ behind)
    (hend : .ok (Lexeme.atEnd size) ∈ behind ∨ ∃ fields e, Phrase.broken fields e ∈ phrases)
    (h : (run size s phrases).tree? = .error e) : Located items e := by
  induction phrases generalizing s with
  | nil => exact State.located_of_result hwhere hs (hend.resolve_right (by simp)) h
  | cons p rest ih =>
      obtain ⟨hp, hrest⟩ := List.forall_mem_cons.mp hphrases
      rw [run] at h
      cases hstep : s.step p with
      | ok s' =>
          rw [hstep] at h
          have hmove := move_of_step hstep
          refine ih (known_of_move hmove hp hs) hrest (hend.imp_right ?_) h
          rintro ⟨fields, error, hmem⟩
          refine ⟨fields, error, (List.mem_cons.mp hmem).resolve_left ?_⟩
          -- no move is made over a broken phrase
          rintro rfl
          cases hmove
      | error refusal =>
          have herror : refusal.error = e := by
            cases refusal <;> simpa [hstep, Refusal.error] using h
          exact herror ▸ State.located_of_step hwhere hs hp hstep

end

end Condition

namespace Query

open ParseError (Located)

/-- Behind the first `where` stands the end of the text, or else the text cannot be cut. -/
theorem end_or_broken {text : String} {front ls : List Lexeme} {last : Except ScanError Lexeme}
    (hscan : Lexeme.scan text = front.map .ok ++ (ls.map .ok ++ [last]))
    (heof : ∀ l ∈ ls, l.token ≠ .eof) (hlast : Lexeme.isTerminal last = true) :
    .ok (Lexeme.atEnd (Text.byteLength text.toList)) ∈ ls.map .ok ++ [last] ∨
      ∃ fields e, .broken fields e ∈ Phrase.ofLexemes (ls.map .ok ++ [last]) := by
  cases last with
  | ok last =>
      have hlast := (Lexeme.faithful_scan text).atEnd last (by simp [hscan]) (beq_iff_eq.mp hlast)
      rw [← String.ofList_toList (s := text), ← Text.byteLength_eq_utf8ByteSize] at hlast
      exact .inl (by simp [hlast, Lexeme.atEnd])
  | error e =>
      obtain ⟨fields, hmem⟩ := Phrase.exists_broken heof e
      exact .inr ⟨fields, e, hmem⟩

/-- Every error points at an item of the text. -/
theorem located_of_parse {text : String} {e : ParseError} (h : parse text = .error e) :
    Located (Lexeme.scan text) e := by
  obtain ⟨init, last, hscan, hlast, hinit⟩ := (Lexeme.faithful_scan text).terminal
  obtain ⟨ls, rfl, heof⟩ := Lexeme.exists_map_ok hinit
  rcases exists_front ls with hfree | ⟨front, l, behind, rfl, hfree, hl⟩
  · cases last with
    | ok last =>
        rw [parse_of_cutFree ⟨⟨last, hscan⟩, hfree⟩] at h
        simp at h
    | error error =>
        rw [parse_of_scanError hscan hfree] at h
        obtain rfl := Except.error.inj h
        exact .scan (by simp [hscan])
  · rw [List.map_append, List.map_cons, List.append_assoc, List.cons_append] at hscan
    rcases hl with hwhere | hgrouping
    · have hbehind : BehindWhere (Lexeme.scan text) l (behind.map .ok ++ [last]) :=
        ⟨⟨front, hscan, fun l hl => (hfree l hl).1⟩, hwhere⟩
      rw [parse_of_where hscan hfree hwhere] at h
      rcases error_of_nextCondition h with hrun | rfl
      · refine Condition.located_of_run hbehind (Condition.State.known_start 0)
          (fun p hp item => Phrase.mem_of_mem_items hp) ?_ hrun
        have hfront : Lexeme.scan text =
            (front ++ [l]).map .ok ++ (behind.map .ok ++ [last]) := by
          rw [hscan]
          simp
        exact end_or_broken hfront (fun l hl => heof l (by simp [hl])) hlast
      · exact .invalidCondition hbehind
    · rw [parse_of_grouping hscan hfree hgrouping] at h
      obtain rfl := Except.error.inj h
      exact .unexpected (by simp [hscan])

end Query

/-! ### Where the items stand

An error that reports no text still has a position, and the empty text stands there
because the item does.
-/

namespace Text

/-- Nothing stands wherever something stands. -/
theorem StandsAt.start {text piece : String} {pos : Nat} (h : StandsAt text pos piece) :
    StandsAt text pos "" := by
  obtain ⟨before, after, htext, hpos⟩ := h
  refine ⟨before, piece ++ after, ?_, hpos⟩
  rw [htext, String.append_empty, String.append_assoc]

theorem StandsAt.isValid {text piece : String} {pos : Nat} (h : StandsAt text pos piece) :
    (⟨pos⟩ : String.Pos.Raw).IsValid text := by
  obtain ⟨before, after, htext, hpos⟩ := h
  refine String.Pos.Raw.isValid_iff_exists_append.mpr ⟨before, piece ++ after, ?_, ?_⟩
  · rw [htext, String.append_assoc]
  · rw [← hpos]
    rfl

theorem StandsAt.le_utf8ByteSize {text piece : String} {pos : Nat} (h : StandsAt text pos piece) :
    pos ≤ text.utf8ByteSize := by
  obtain ⟨before, after, rfl, rfl⟩ := h
  rw [String.utf8ByteSize_append, String.utf8ByteSize_append]
  omega

end Text

namespace Lexeme

/-- A fault begins with what is reported of it. -/
theorem Fault.exists_reported {pos : Nat} {cs : List Char} {e : ScanError} (h : Fault pos cs e) :
    e.pos = pos ∧ ∃ rest, cs = e.reported.toList ++ rest := by
  cases h with
  | @loneEquals rest => exact ⟨rfl, rest, by simp [ScanError.reported]⟩
  | @unterminated mark rest => exact ⟨rfl, mark :: rest, by simp [ScanError.reported]⟩
  | @badNumber run rest next =>
      refine ⟨rfl, rest, ?_⟩
      rw [ScanError.reported, String.toList_ofList, List.append_assoc, List.singleton_append]
  | @malformed c rest => exact ⟨rfl, rest, by simp [ScanError.reported]⟩

variable {text : String}

theorem standsAt_of_ok_mem {l : Lexeme} (h : .ok l ∈ scan text) :
    Text.StandsAt text l.pos l.text := by
  by_cases htoken : l.token = .eof
  · rw [(faithful_scan text).atEnd l h htoken]
    exact ⟨text, "", by simp, rfl⟩
  · exact ((faithful_scan text).standsAt l h htoken).2

theorem standsAt_of_error_mem {e : ScanError} (h : .error e ∈ scan text) :
    Text.StandsAt text e.pos e.reported := by
  obtain ⟨ls, last, front, behind, hscan, -, htext, hstop, hverdict⟩ :=
    exists_verdict_scanFrom 0 text.toList
  have hlast : last = .error e := by
    rw [scan, hscan] at h
    simpa [eq_comm] using h
  obtain ⟨hpos, rest, hrest⟩ := ((hverdict.error_iff e).mp hlast).exists_reported
  have hsplit : text.toList =
      (front ++ behind.takeWhile Text.isBlank) ++ e.reported.toList ++ rest := by
    rw [htext, List.append_assoc, List.append_assoc, ← hrest, List.takeWhile_append_dropWhile]
  have hstands := Text.standsAt_of_toList hsplit
  rwa [String.ofList_toList, Text.byteLength_append, ← Nat.zero_add (Text.byteLength front),
    ← hstop, ← hpos] at hstands

end Lexeme

namespace ParseError

/-- Where the item stands at which an error points, the text holds what is reported. -/
theorem Located.standsAt {text : String} {e : ParseError} (h : Located (Lexeme.scan text) e) :
    Text.StandsAt text e.pos e.reported := by
  cases h with
  | scan h => exact Lexeme.standsAt_of_error_mem h
  | unexpected h => exact Lexeme.standsAt_of_ok_mem h
  | badNumber h _ _ => exact Lexeme.standsAt_of_ok_mem h
  | incomplete hwhere h _ => exact (Lexeme.standsAt_of_ok_mem (hwhere.subset h)).start
  | unclosedParen h _ => exact (Lexeme.standsAt_of_ok_mem h).start
  | tooDeep h _ => exact (Lexeme.standsAt_of_ok_mem h).start
  | invalidCondition hwhere => exact (Lexeme.standsAt_of_ok_mem hwhere.mem).start

end ParseError

namespace Query

open ParseError (Located)

/--
**Every error points at the text.**  Its position is a boundary between characters of the text, the
end included.  It is the position of the item at which the text cannot be cut, where that is the
error, and otherwise that of a lexeme which is what the error says: the one that cannot stand where
it stands, a number, an operator behind the first `where`, the end, an opening parenthesis or an
operator, or the first `where`.  And the text that is reported with it stands there.
-/
theorem parse_error_located {text : String} {e : ParseError} (h : parse text = .error e) :
    Located (Lexeme.scan text) e ∧ (⟨e.pos⟩ : String.Pos.Raw).IsValid text ∧
      e.pos ≤ text.utf8ByteSize ∧ Text.StandsAt text e.pos e.reported := by
  have hlocated := located_of_parse h
  have hstands := hlocated.standsAt
  exact ⟨hlocated, hstands.isValid, hstands.le_utf8ByteSize, hstands⟩

/-- Behind characters of more than one byte the operator of the group is at fault, not the one in
front of it. -/
theorem parse_error_located_group :
    parse "where .é == (.ü <) or 1" = .error (.incomplete 18) ∧
      Located (Lexeme.scan "where .é == (.ü <) or 1") (.incomplete 18) ∧
        (⟨18⟩ : String.Pos.Raw).IsValid "where .é == (.ü <) or 1" := by
  have hparse : parse "where .é == (.ü <) or 1" = .error (.incomplete 18) := by cbv
  have hlocated := parse_error_located hparse
  exact ⟨hparse, hlocated.1, hlocated.2.1⟩

end Query

end FieldQuery

/-
Lexemes that stand elsewhere.

A reading looks at tokens and texts and passes positions on.  So moving every lexeme
moves the position of an error in the same way and changes nothing else: this is
`step_moved` for one step of the condition reader and `parse_of_moved` for whole texts.

It follows that the position of an error is that of a lexeme.  If it were not, it could
be moved in two ways while all lexemes stay where they are, and one text would have two
errors.  Nothing has to be known about the reader for that beyond that it commutes with
moving.

For the same reason the map of positions need not be increasing, or even one-to-one.
Any function will do, and `exists_move` finds one for the positions at hand.
-/
import FieldQuery.Proofs.Condition.Words
import FieldQuery.Proofs.Scan.Respaced
import Mathlib

namespace FieldQuery

variable {α β ε ε' : Type} {f : Nat → Nat}

/-- The lexeme with its position moved. -/
def Lexeme.moved (f : Nat → Nat) (l : Lexeme) : Lexeme := { l with pos := f l.pos }

/-- The error with its position moved. -/
def ScanError.moved (f : Nat → Nat) : ScanError → ScanError
  | .malformed c pos => .malformed c (f pos)
  | .loneEquals pos => .loneEquals (f pos)
  | .badNumber text pos => .badNumber text (f pos)
  | .unterminated pos => .unterminated (f pos)

namespace ParseError

/-- The error with its position moved. -/
def moved (f : Nat → Nat) : ParseError → ParseError
  | .scan error => .scan (error.moved f)
  | .unexpected l => .unexpected (l.moved f)
  | .badNumber text pos => .badNumber text (f pos)
  | .incomplete pos => .incomplete (f pos)
  | .unclosedParen pos => .unclosedParen (f pos)
  | .tooDeep pos => .tooDeep (f pos)
  | .invalidCondition pos => .invalidCondition (f pos)

theorem pos_moved (f : Nat → Nat) (e : ParseError) : (e.moved f).pos = f e.pos := by
  cases e with
  | scan error => cases error <;> rfl
  | _ => rfl

/-- An error has one position. -/
theorem moved_eq_const (f : Nat → Nat) (e : ParseError) : e.moved f = e.moved fun _ => f e.pos := by
  cases e with
  | scan error => cases error <;> rfl
  | _ => rfl

end ParseError

/-- What was found and what went wrong, both changed. -/
def onBoth (f : α → β) (g : ε → ε') : Except ε α → Except ε' β
  | .ok a => .ok (f a)
  | .error e => .error (g e)

/-! ### The condition reader

Each function of the reader commutes with moving by itself.  None of them computes with
a position; they only put it into a state or an error.
-/

namespace Condition

/-- The expression with the position of its operator moved. -/
def Progress.moved (f : Nat → Nat) : Progress → Progress
  | .awaiting op left? pos => .awaiting op left? (f pos)
  | p => p

/-- The group with its positions moved. -/
def Group.moved (f : Nat → Nat) (group : Group) : Group :=
  ⟨group.opening.moved f, group.outer.moved f⟩

/-- The state with all positions in it moved. -/
def State.moved (f : Nat → Nat) (s : State) : State :=
  { s with groups := s.groups.map (Group.moved f), progress := s.progress.moved f }

/-- The refusal with the position of its error moved. -/
def Refusal.moved (f : Nat → Nat) : Refusal → Refusal
  | .keeping error => .keeping (error.moved f)
  | .dropping error => .dropping (error.moved f)

theorem Progress.place_moved (p : Progress) (operand : Tree) (first : Lexeme) :
    (p.moved f).place operand (first.moved f) =
      onBoth (moved f) (ParseError.moved f) (p.place operand first) := by
  cases p with
  | empty | complete => rfl
  | awaiting op left? pos => cases left? <;> rfl

theorem Progress.result_moved (p : Progress) :
    (p.moved f).result = onBoth id (ParseError.moved f) p.result := by
  cases p <;> rfl

namespace State

theorem place_moved (s : State) (operand : Tree) (first : Lexeme) :
    (s.moved f).place operand (first.moved f) =
      onBoth (moved f) (Refusal.moved f) (s.place operand first) := by
  have hplace := s.progress.place_moved (f := f) operand first
  unfold place
  rw [show (s.moved f).progress = s.progress.moved f from rfl, hplace]
  cases s.progress.place operand first <;> rfl

theorem stepOperator_moved (s : State) (op : Operator) (pos : Nat) :
    (s.moved f).stepOperator op (f pos) =
      onBoth (moved f) (Refusal.moved f) (s.stepOperator op pos) := by
  obtain ⟨groups, progress, list?, operators⟩ := s
  unfold stepOperator
  by_cases hmany : maxOperators ≤ operators
  · rw [if_pos hmany]
    exact if_pos hmany
  · rw [if_neg hmany]
    refine (if_neg hmany).trans ?_
    cases progress <;> rfl

theorem openGroup_moved (s : State) (l : Lexeme) :
    (s.moved f).openGroup (l.moved f) =
      onBoth (moved f) (Refusal.moved f) (s.openGroup l) := by
  have hlength : (s.moved f).groups.length = s.groups.length := List.length_map ..
  unfold openGroup
  rw [hlength]
  split <;> rfl

theorem closeGroup_moved (s : State) (l : Lexeme) :
    (s.moved f).closeGroup (l.moved f) =
      onBoth (moved f) (Refusal.moved f) (s.closeGroup l) := by
  obtain ⟨groups, progress, list?, operators⟩ := s
  cases groups with
  | nil => rfl
  | cons group groups =>
      cases progress with
      | empty | awaiting => rfl
      | complete tree =>
          exact place_moved ⟨groups, group.outer, list?, operators⟩ tree group.opening

theorem openList_moved (s : State) (l : Lexeme) :
    (s.moved f).openList (l.moved f) = onBoth (moved f) (Refusal.moved f) (s.openList l) := by
  obtain ⟨groups, progress, list?, operators⟩ := s
  cases progress <;> rfl

theorem literal?_moved (l : Lexeme) : (l.moved f).literal? = l.literal? :=
  Lexeme.literal?_congr rfl

theorem stepLiteral_moved (s : State) (l : Lexeme) :
    (s.moved f).stepLiteral (l.moved f) =
      onBoth (moved f) (Refusal.moved f) (s.stepLiteral l) := by
  unfold stepLiteral
  rw [literal?_moved]
  cases l.literal? with
  | none => rfl
  | some literal => exact s.place_moved literal l

theorem stepLexeme_moved (s : State) (l : Lexeme) :
    (s.moved f).stepLexeme (l.moved f) =
      onBoth (moved f) (Refusal.moved f) (s.stepLexeme l) := by
  unfold stepLexeme
  rw [show (l.moved f).token = l.token from rfl]
  split
  · exact s.stepOperator_moved _ l.pos
  · exact s.openGroup_moved l
  · exact s.closeGroup_moved l
  · exact s.openList_moved l
  case h_5 | h_6 | h_7 | h_8 => exact s.stepLiteral_moved l
  · rfl

theorem stepList_moved (s : State) (literals : List Tree) (l : Lexeme) :
    (s.moved f).stepList literals (l.moved f) =
      onBoth (moved f) (Refusal.moved f) (s.stepList literals l) := by
  unfold stepList
  rw [show (l.moved f).token = l.token from rfl]
  split
  · rfl
  · exact place_moved { s with list? := none } (.sequence literals) l
  case h_3 | h_4 | h_5 | h_6 =>
    rw [literal?_moved]
    cases l.literal? <;> rfl
  · rfl

/-- A step over a moved phrase from a moved state. -/
theorem step_moved (s : State) {p : Phrase} (hp : p.Sound) :
    (s.moved f).step (p.map (Lexeme.moved f)) =
      onBoth (moved f) (Refusal.moved f) (s.step p) := by
  have hlist : (s.moved f).list? = s.list? := rfl
  cases p with
  | broken fields error => exact hp.elim
  | path first more =>
      have htext := @Phrase.pathText_map (Lexeme.moved f) (fun _ => rfl) first more
      rw [Phrase.map]
      unfold step
      rw [hlist]
      cases s.list? with
      | some literals => rfl
      | none =>
          dsimp only
          rw [htext]
          exact s.place_moved _ first
  | lexeme l =>
      rw [Phrase.map]
      unfold step
      rw [hlist]
      cases s.list? with
      | some literals => exact s.stepList_moved literals l
      | none => exact s.stepLexeme_moved l

theorem result_moved (s : State) (size : Nat) :
    (s.moved f).result (f size) = onBoth id (ParseError.moved f) (s.result size) := by
  obtain ⟨groups, progress, list?, operators⟩ := s
  cases list? with
  | some literals => rfl
  | none =>
      cases groups with
      | cons group groups => rfl
      | nil => exact progress.result_moved

end State

/-- Moving a whole condition moves its error. -/
theorem run_moved (size : Nat) (phrases : List Phrase) (hsound : ∀ p ∈ phrases, p.Sound) :
    ∀ s : State, (run (f size) (s.moved f) (phrases.map (Phrase.map (Lexeme.moved f)))).tree? =
      onBoth id (ParseError.moved f) (run size s phrases).tree? := by
  induction phrases with
  | nil => exact fun s => s.result_moved size
  | cons p rest ih =>
      intro s
      obtain ⟨hp, hrest⟩ := List.forall_mem_cons.mp hsound
      rw [List.map_cons, run, run, s.step_moved hp]
      cases s.step p with
      | ok next => exact ih hrest next
      | error refusal => cases refusal <;> rfl

end Condition

/-! ### Whole texts

A text that is cut into the same words has its lexemes elsewhere, and so it has the same
query or an error that has been moved.
-/

namespace Reading

theorem nextCondition_moved (selectors : List String) (pos operators size : Nat)
    {phrases : List Phrase} (hsound : ∀ p ∈ phrases, p.Sound) :
    (nextCondition selectors (f pos)
      ⟨phrases.map (Phrase.map (Lexeme.moved f)), operators, f size⟩).1 =
      onBoth id (ParseError.moved f)
        (nextCondition selectors pos ⟨phrases, operators, size⟩).1 := by
  have hrun := Condition.run_moved (f := f) size phrases hsound (.start operators)
  rw [show (Condition.State.start operators).moved f = .start operators from rfl] at hrun
  unfold nextCondition
  dsimp only
  rw [hrun]
  cases (Condition.run size (.start operators) phrases).tree? with
  | error e => rfl
  | ok tree? =>
      cases tree? with
      | none => rfl
      | some tree =>
          show (if tree.isCondition then _ else _) = onBoth id _ (if tree.isCondition then _ else _)
          split <;> rfl

theorem nextFrom_moved (operators size : Nat) (phrases : List Phrase)
    (hsound : ∀ p ∈ phrases, p.Sound) : ∀ selectors : List String,
      (nextFrom operators (f size) selectors (phrases.map (Phrase.map (Lexeme.moved f)))).1 =
        onBoth id (ParseError.moved f) (nextFrom operators size selectors phrases).1 := by
  induction phrases with
  | nil => exact fun _ => rfl
  | cons p rest ih =>
      intro selectors
      obtain ⟨hp, hrest⟩ := List.forall_mem_cons.mp hsound
      rw [List.map_cons]
      cases p with
      | broken fields error => exact hp.elim
      | path first more =>
          have htext := @Phrase.pathText_map (Lexeme.moved f) (fun _ => rfl) first more
          rw [Phrase.map, nextFrom, nextFrom, htext]
          exact ih hrest _
      | lexeme l =>
          rw [Phrase.map, nextFrom, nextFrom, show (l.moved f).token = l.token from rfl]
          by_cases hwhere : l.token = .whereKeyword
          · rw [if_pos hwhere, if_pos hwhere]
            exact nextCondition_moved selectors l.pos operators size hrest
          · rw [if_neg hwhere, if_neg hwhere]
            split
            · rfl
            · exact ih hrest selectors

end Reading

/-- Positions that differ can be moved to any others, and all else to one more. -/
theorem exists_move (other : Nat) : ∀ {positions : List Nat} (_ : positions.Nodup)
    (targets : List Nat), targets.length = positions.length →
      ∃ f : Nat → Nat, positions.map f = targets ∧ ∀ pos ∉ positions, f pos = other
  | [], _, targets, hlength =>
      ⟨fun _ => other, (List.length_eq_zero_iff.mp hlength).symm, fun _ _ => rfl⟩
  | pos :: rest, hnodup, [], hlength => by simp at hlength
  | pos :: rest, hnodup, target :: targets, hlength => by
      obtain ⟨hpos, hrest⟩ := List.nodup_cons.mp hnodup
      obtain ⟨f, hf, hother⟩ := exists_move other hrest targets (Nat.succ.inj hlength)
      refine ⟨Function.update f pos target, ?_, fun p hp => ?_⟩
      · rw [List.map_cons, Function.update_self, ← hf]
        refine congrArg _ (List.map_congr_left fun p hp => ?_)
        exact Function.update_of_ne (fun heq : p = pos => hpos (heq ▸ hp)) _ _
      · obtain ⟨hne, hnot⟩ := not_or.mp (List.mem_cons.not.mp hp)
        rw [Function.update_of_ne hne]
        exact hother p hnot

namespace Query

open Lexeme

variable {q q' : String} {ls ls' : List Lexeme} {last last' : Lexeme}

theorem parse_of_moved (h : scan q = ls.map .ok ++ [.ok last])
    (h' : scan q' = ls'.map .ok ++ [.ok last']) (hls : ls' = ls.map (moved f))
    (hlast : last'.pos = f last.pos) :
    parse q' = onBoth id (ParseError.moved f) (parse q) := by
  have hsize : ∀ {text : String} {ls : List Lexeme} {last : Lexeme},
      scan text = ls.map .ok ++ [.ok last] → Text.byteLength text.toList = last.pos := by
    intro text ls last hscan
    rw [(ends_of_scan hscan).2, Text.byteLength_eq_utf8ByteSize, String.ofList_toList]
  have hsound := Phrase.sound_group (ends_of_scan h).1
  rw [parse_eq_nextFrom, parse_eq_nextFrom, Phrase.ofText_eq_group h, Phrase.ofText_eq_group h',
    hsize h, hsize h', hls, @Phrase.group_map (moved f) fun _ => rfl, hlast]
  exact Reading.nextFrom_moved 0 last.pos _ hsound []

/-- Lexemes with the same words stand where some move takes them, and whatever stands nowhere
among them can be taken anywhere. -/
theorem exists_moved (h : scan q = ls.map .ok ++ [.ok last])
    (hwords : ls'.map word = ls.map word) (last' : Lexeme) (other : Nat) :
    ∃ f : Nat → Nat, ls' = ls.map (moved f) ∧ last'.pos = f last.pos ∧
      ∀ pos, (∀ l ∈ ls ++ [last], l.pos ≠ pos) → f pos = other := by
  have hascending := (faithful_scan q).ascending
  have hitems : (scan q).map itemPos = (ls ++ [last]).map Lexeme.pos := by
    rw [h, List.map_append, List.map_append, List.map_map]
    rfl
  rw [hitems] at hascending
  have hnodup : ((ls ++ [last]).map Lexeme.pos).Nodup := hascending.imp fun hlt => hlt.ne
  have hlength : ls'.length = ls.length := by simpa using congrArg List.length hwords
  obtain ⟨f, hf, hother⟩ := exists_move other hnodup ((ls' ++ [last']).map Lexeme.pos)
    (by simp [hlength])
  rw [List.map_map, List.map_append, List.map_append] at hf
  obtain ⟨hpositions, hlast⟩ := List.append_inj hf (by simp [hlength])
  refine ⟨f, ?_, (List.cons.inj hlast).1.symm, fun pos hpos => hother pos fun hmem => ?_⟩
  · -- lexeme by lexeme: the words agree, and the move gives the positions
    clear h hascending hitems hnodup hother hf
    induction ls generalizing ls' with
    | nil => exact List.map_eq_nil_iff.mp hwords
    | cons l rest ih =>
        obtain ⟨l', rest', rfl, hword, hrest⟩ := List.map_eq_cons_iff.mp hwords
        rw [List.map_cons, List.map_cons] at hpositions
        obtain ⟨hpos, hpositions⟩ := List.cons.inj hpositions
        rw [List.map_cons, ← ih hrest (Nat.succ.inj hlength) hpositions]
        refine congrArg (· :: rest') ?_
        obtain ⟨token, pos, text⟩ := l
        obtain ⟨token', pos', text'⟩ := l'
        obtain ⟨rfl, rfl⟩ := Prod.mk.inj hword
        exact congrArg (Lexeme.mk token' · text') hpos.symm
  · obtain ⟨l, hl, hlpos⟩ := List.mem_map.mp hmem
    exact hpos l hl hlpos

theorem exists_lexeme_of_error (h : scan q = ls.map .ok ++ [.ok last]) {e : ParseError}
    (he : parse q = .error e) : ∃ l ∈ ls ++ [last], l.pos = e.pos := by
  by_contra hnone
  have hother : ∀ l ∈ ls ++ [last], l.pos ≠ e.pos := fun l hl hpos => hnone ⟨l, hl, hpos⟩
  -- the lexemes stay where they are, and the error is moved to wherever one likes
  have hmoved : ∀ other, e.pos = other := by
    intro other
    obtain ⟨f, hls, hlast, hf⟩ := exists_moved h (rfl : ls.map word = ls.map word) last other
    have hparse := parse_of_moved h h hls hlast
    rw [he] at hparse
    have hpos := congrArg ParseError.pos (Except.error.inj hparse)
    rwa [ParseError.pos_moved, hf e.pos hother] at hpos
  exact absurd (hmoved (e.pos + 1)) (by omega)

/--
**Blanks between lexemes do not matter.**  A text that is cut without error is cut into the same
tokens and texts with any other blanks around its lexemes, so long as there are some between
them.  It is read as the same query, or it has the same error with the same token and text, and
the position of the error is that of the lexeme with the same number.
-/
theorem parse_respaced (h : scan q = ls.map .ok ++ [.ok last]) {gaps : List String}
    {final : String} (hgaps : Spaces gaps final ls) :
    ∃ (ls' : List Lexeme) (last' : Lexeme),
      scan (Text.interleave gaps (ls.map text) final) = ls'.map .ok ++ [.ok last'] ∧
      ls'.map word = ls.map word ∧ last'.token = .eof ∧
      (∀ query, parse q = .ok query →
        parse (Text.interleave gaps (ls.map text) final) = .ok query) ∧
      ∀ e, parse q = .error e → ∃ (i : Nat) (l l' : Lexeme),
        (ls ++ [last])[i]? = some l ∧ (ls' ++ [last'])[i]? = some l' ∧ e.pos = l.pos ∧
        parse (Text.interleave gaps (ls.map text) final) = .error (e.moved fun _ => l'.pos) := by
  obtain ⟨ls', last', hwords, h'⟩ := scan_interleave h hgaps
  obtain ⟨f, hls, hlast, -⟩ := exists_moved h hwords last' 0
  have hparse := parse_of_moved h h' hls hlast
  refine ⟨ls', last', h', hwords, by rw [(ends_of_scan h').2], fun query hquery => ?_,
    fun e he => ?_⟩
  · rw [hparse, hquery]
    rfl
  · obtain ⟨l, hl, hpos⟩ := exists_lexeme_of_error h he
    obtain ⟨i, hi⟩ := List.mem_iff_getElem?.mp hl
    have hall : (ls' ++ [last']).map Lexeme.pos = (ls ++ [last]).map (f ∘ Lexeme.pos) := by
      rw [hls, List.map_append, List.map_append, List.map_map, List.map_singleton, hlast]
      rfl
    have hi' := congrArg (·[i]?) hall
    simp only [List.getElem?_map, hi, Option.map_some] at hi'
    obtain ⟨l', hl', hpos'⟩ := Option.map_eq_some_iff.mp hi'
    refine ⟨i, l, l', hi, hl', hpos.symm, ?_⟩
    rw [hparse, he, hpos', Function.comp_apply, hpos, ← ParseError.moved_eq_const]
    rfl

set_option maxRecDepth 2000 in
/-- Lexemes without blanks between them and far apart, in a query and in a text with a fault. -/
theorem parse_respaced_apart :
    (∃ query, parse ".a where(.b>=1)" = .ok query ∧
      parse " .a where\t( .b >=\n1 ) " = .ok query) ∧
    ∃ e pos, parse ".a where(.b>=)" = .error e ∧
      parse " .a where\t( .b >=\n) " = .error (e.moved fun _ => pos) := by
  have hcut : scan ".a where(.b>=1)" =
      [⟨.field, 0, ".a"⟩, ⟨.whereKeyword, 3, "where"⟩, ⟨.leftParen, 8, "("⟩, ⟨.field, 9, ".b"⟩,
        ⟨.operator (.compare .ge), 11, ">="⟩, ⟨.number, 13, "1"⟩,
        ⟨.rightParen, 14, ")"⟩].map .ok ++ [.ok (.atEnd 15)] := by cbv
  have hcut' : scan ".a where(.b>=)" =
      [⟨.field, 0, ".a"⟩, ⟨.whereKeyword, 3, "where"⟩, ⟨.leftParen, 8, "("⟩, ⟨.field, 9, ".b"⟩,
        ⟨.operator (.compare .ge), 11, ">="⟩,
        ⟨.rightParen, 13, ")"⟩].map .ok ++ [.ok (.atEnd 14)] := by cbv
  have hquery : parse ".a where(.b>=1)" =
      .ok ⟨[".a"], some (.binary (.compare .ge) (.path ".b") (.integer 1))⟩ := by cbv
  have herror : parse ".a where(.b>=)" = .error (.incomplete 11) := by cbv
  have hblank : Text.isBlank ' ' ∧ Text.isBlank '\t' ∧ Text.isBlank '\n' := by decide
  constructor
  · obtain ⟨-, -, -, -, -, hsame, -⟩ := @parse_respaced _ _ _ hcut
      [" ", " ", "\t", " ", " ", "\n", " "] " " ⟨rfl, by simp [hblank], by simp [hblank], by decide⟩
    exact ⟨_, hquery, hsame _ hquery⟩
  · obtain ⟨_, _, -, -, -, -, hsame⟩ := @parse_respaced _ _ _ hcut'
      [" ", " ", "\t", " ", " ", "\n"] " " ⟨rfl, by simp [hblank], by simp [hblank], by decide⟩
    obtain ⟨_, _, l', -, -, -, hmoved⟩ := hsame _ herror
    exact ⟨_, l'.pos, herror, hmoved⟩

end Query

end FieldQuery

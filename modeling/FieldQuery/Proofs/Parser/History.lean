/-
What becomes of the lexemes.

A parser is called again and again, and a history follows it step by step: which items
its calls have taken and not given back, and what they have answered.  `Kept` is the
invariant of all histories. What has been taken and what the lookahead has still to give
are together the items of the text, in their order; and a lexeme that is to be given
back is the one taken last, with nothing held.  The second half carries the first over a
step that gives a lexeme back, and it holds because no point but the one behind the end
of a path gives anything back, `returned?_of_take`.

A parser that keeps its lexemes goes through the points that it would go through on the
stream of them, `Kept.step_eq_advance`, so its calls answer what calls of `Reading.next`
answer.

A history is of any number of calls and stops at any point of one.  So nothing is said
about a call as a whole before it is known that calls come to an end, and that is the
last thing shown.
-/
import FieldQuery.Proofs.Parser.Answers

namespace FieldQuery

open Stream'

namespace Parser

/-! ### What is given back

Whether a point gives a lexeme back can be seen from the point.  These lemmas go through
the places that a step can lead to and find one.
-/

namespace Point

/-- The lexeme that is given back at a point. -/
def returned? : Point → Option Lexeme
  | .pathEnd _ _ next => some next
  | _ => none

variable {p : Point}

theorem returned?_proceed (c : Clause) (count : Nat)
    (outcome : Except Condition.Refusal Condition.State) :
    (c.proceed count outcome).returned? = none := by
  rcases outcome with (_ | _) | _ <;> rfl

theorem returned?_finish (c : Clause) (size : Nat) : (c.finish size).returned? = none := by
  unfold Clause.finish
  split
  · rfl
  · rfl
  · split <;> rfl

theorem returned?_clauseLook (c : Clause) (l : Lexeme) : (c.afterLook l).returned? = none := by
  unfold Clause.afterLook
  split
  case h_1 => exact returned?_finish c _
  case h_7 =>
    unfold Clause.unlessKept
    split <;> rfl
  all_goals rfl

theorem returned?_draftLook (d : Draft) (l : Lexeme) : (d.afterLook l).returned? = none := by
  unfold Draft.afterLook
  split <;> rfl

theorem returned?_site (site : Site) (text : String) : (site.proceed text).returned? = none := by
  cases site with
  | selector d => rfl
  | operand c first => exact returned?_proceed c _ _

/-- When a call begins nothing is given back. -/
theorem returned?_of_nothing {next : Point} (h : p.demand = .nothing next) :
    next.returned? = none := by
  cases p with
  | idle operators answer? =>
      obtain rfl := Demand.nothing.inj h
      rfl
  | part | stray | filter | path | pathEnd | phrase | literal | mark => simp [demand] at h

/-- What is given back behind a lexeme that has been taken is this lexeme. -/
theorem returned?_of_take {next : Lexeme → Point} (h : p.demand = .take next) {l l' : Lexeme}
    (hl' : (next l).returned? = some l') : l' = l := by
  cases p with
  | stray d =>
      obtain rfl := Demand.take.inj h
      simp [returned?] at hl'
  | filter d =>
      obtain rfl := Demand.take.inj h
      simp [returned?] at hl'
  | path site text =>
      obtain rfl := Demand.take.inj h
      dsimp only at hl'
      split at hl'
      · simp [returned?] at hl'
      · exact (Option.some.inj hl').symm
  | literal c =>
      obtain rfl := Demand.take.inj h
      simp [Clause.afterTake, returned?_proceed] at hl'
  | mark c first =>
      obtain rfl := Demand.take.inj h
      simp [Clause.afterTake, returned?_proceed] at hl'
  | idle | part | pathEnd | phrase => simp [demand] at h

/-- Behind a lexeme that has only been looked at nothing is given back. -/
theorem returned?_of_look {next : Lexeme → Point} (h : p.demand = .look next) (l : Lexeme) :
    (next l).returned? = none := by
  cases p with
  | part d =>
      obtain rfl := Demand.look.inj h
      exact returned?_draftLook d l
  | phrase c =>
      obtain rfl := Demand.look.inj h
      exact returned?_clauseLook c l
  | idle | stray | filter | path | pathEnd | literal | mark => simp [demand] at h

/-- One lexeme is given back at a time. -/
theorem returned?_of_giveBack {l : Lexeme} {next : Point} (h : p.demand = .giveBack l next) :
    p.returned? = some l ∧ next.returned? = none := by
  cases p with
  | pathEnd site text l' =>
      obtain ⟨rfl, rfl⟩ := Demand.giveBack.inj h
      exact ⟨rfl, returned?_site site text⟩
  | idle | part | stray | filter | path | phrase | literal | mark => simp [demand] at h

end Point

/-! ### Histories

What has been taken is recorded beside the parser and not in it, and a step does to the
record what it does to the lookahead.
-/

/-- The answer of the call that has come to its end at a point. -/
def Point.answer? : Point → Option (Except ParseError Tree)
  | .idle _ answer? => answer?
  | _ => none

/-- A parser and what has been seen of it. -/
structure History where
  parser : Parser
  /-- The items that have been taken and not given back. -/
  taken : List (Except ScanError Lexeme)
  /-- The answers of the calls that have come to their end. -/
  answers : List (Except ParseError Tree)

namespace History

/-- Before the first call. -/
def ofText (text : String) : History := ⟨.ofText text, [], []⟩

/-- One step further.  An error that is met while looking is taken, a lexeme is not. -/
def step (h : History) : History where
  parser := h.parser.step
  taken :=
    match h.parser.point.demand with
    | .nothing _ => h.taken
    | .take _ => h.taken ++ [h.parser.lexemes.take.1]
    | .look _ =>
      match h.parser.lexemes.look.1 with
      | .ok _ => h.taken
      | .error e => h.taken ++ [.error e]
    | .giveBack _ _ => h.taken.dropLast
  answers := h.answers ++ h.parser.step.point.answer?.toList

/-- The history of calls, one after the other, after this many steps. -/
def after (text : String) : Nat → History
  | 0 => ofText text
  | n + 1 => (after text n).step

/-- No lexeme has been lost, repeated or moved, and the one that is to be given back next has just
been taken. -/
structure Kept (text : String) (h : History) : Prop where
  /-- What has been taken and what is left are the items of the text. -/
  items : h.taken ++ₛ h.parser.lexemes.items = Lexeme.stream text
  returned : ∀ l, h.parser.point.returned? = some l →
    h.parser.lexemes.held? = none ∧ h.taken.getLast? = some (.ok l)

theorem kept_ofText (text : String) : Kept text (ofText text) :=
  ⟨Lookahead.items_ofText text, by simp [ofText, Parser.ofText, Point.returned?]⟩

variable {text : String} {h : History}

/-! ### One step

There are three kinds of demands that touch an item, and one equation for each.
-/

/-- What a step does that takes an item. -/
theorem step_of_take {next : Lexeme → Point} (hdemand : h.parser.point.demand = .take next) :
    h.step.parser.point = h.parser.point.goOn next h.parser.lexemes.items.head ∧
      h.step.taken = h.taken ++ [h.parser.lexemes.items.head] ∧
      h.step.parser.lexemes.items = h.parser.lexemes.items.tail ∧
      h.step.parser.lexemes.held? = none := by
  obtain ⟨hitem, hleft, hheld⟩ := h.parser.lexemes.take_items
  have hparser : h.step.parser =
      ⟨h.parser.lexemes.take.2, h.parser.point.goOn next h.parser.lexemes.take.1⟩ := by
    simp only [step, Parser.step, hdemand]
  have htaken : h.step.taken = h.taken ++ [h.parser.lexemes.take.1] := by
    simp only [step, hdemand]
  rw [hparser, htaken, hitem]
  exact ⟨rfl, rfl, hleft, hheld⟩

theorem step_of_look {next : Lexeme → Point} (hdemand : h.parser.point.demand = .look next) :
    h.step.parser.point = h.parser.point.goOn next h.parser.lexemes.items.head ∧
      ((∃ l, h.parser.lexemes.items.head = .ok l ∧ h.step.taken = h.taken ∧
          h.step.parser.lexemes.items = h.parser.lexemes.items) ∨
        ∃ e, h.parser.lexemes.items.head = .error e ∧ h.step.taken = h.taken ++ [.error e] ∧
          h.step.parser.lexemes.items = h.parser.lexemes.items.tail) := by
  obtain ⟨hitem, hleft⟩ := h.parser.lexemes.look_items
  have hparser : h.step.parser =
      ⟨h.parser.lexemes.look.2, h.parser.point.goOn next h.parser.lexemes.look.1⟩ := by
    simp only [step, Parser.step, hdemand]
  rw [hparser, hitem]
  refine ⟨rfl, ?_⟩
  rcases hleft with ⟨l, hhead, hleft⟩ | ⟨⟨e, hhead⟩, hleft⟩
  · have htaken : h.step.taken = h.taken := by
      simp only [step, hdemand, hitem, hhead]
    exact .inl ⟨l, hhead, htaken, hleft⟩
  · have htaken : h.step.taken = h.taken ++ [.error e] := by
      simp only [step, hdemand, hitem, hhead]
    exact .inr ⟨e, hhead, htaken, hleft⟩

theorem step_of_giveBack {l : Lexeme} {next : Point}
    (hdemand : h.parser.point.demand = .giveBack l next) (hheld : h.parser.lexemes.held? = none) :
    h.step.parser.point = next ∧ h.step.taken = h.taken.dropLast ∧
      h.step.parser.lexemes.items = Stream'.cons (.ok l) h.parser.lexemes.items := by
  have hparser : h.step.parser = ⟨h.parser.lexemes.giveBack l, next⟩ := by
    simp only [step, Parser.step, hdemand]
  have htaken : h.step.taken = h.taken.dropLast := by
    simp only [step, hdemand]
  rw [hparser, htaken]
  exact ⟨rfl, rfl, Lookahead.giveBack_items hheld l⟩

/-- An item that is taken off the stream goes behind those that have been taken. -/
theorem append_head (taken : List (Except ScanError Lexeme))
    (s : Stream' (Except ScanError Lexeme)) : (taken ++ [s.head]) ++ₛ s.tail = taken ++ₛ s := by
  rw [append_append_stream, append_stream_head_tail]

theorem returned?_goOn_of_look {p : Point} {next : Lexeme → Point} (hdemand : p.demand = .look next)
    (item : Except ScanError Lexeme) : (p.goOn next item).returned? = none := by
  cases item with
  | ok l => exact Point.returned?_of_look hdemand l
  | error e => rfl

/-- One step keeps the lexemes. -/
theorem Kept.step (hkept : Kept text h) : Kept text h.step := by
  have hitems := hkept.items
  cases hdemand : h.parser.point.demand with
  | nothing next =>
      have hstep : h.step.parser = { h.parser with point := next } ∧ h.step.taken = h.taken := by
        simp only [History.step, Parser.step, hdemand, and_self]
      refine ⟨by rw [hstep.1, hstep.2, hitems], fun l hl => ?_⟩
      rw [hstep.1, Point.returned?_of_nothing hdemand] at hl
      cases hl
  | take next =>
      obtain ⟨hpoint, htaken, hleft, hheld⟩ := step_of_take hdemand
      refine ⟨by rw [htaken, hleft, append_head, hitems], fun l hl => ⟨hheld, ?_⟩⟩
      rw [hpoint] at hl
      rw [htaken, List.getLast?_concat]
      cases hhead : h.parser.lexemes.items.head with
      | ok l' =>
          rw [hhead] at hl
          rw [Point.returned?_of_take hdemand hl]
      | error e =>
          rw [hhead] at hl
          cases hl
  | look next =>
      obtain ⟨hpoint, hcases⟩ := step_of_look hdemand
      refine ⟨?_, fun l hl => ?_⟩
      · rcases hcases with ⟨l, -, htaken, hleft⟩ | ⟨e, hhead, htaken, hleft⟩
        · rw [htaken, hleft, hitems]
        · rw [htaken, hleft, ← hhead, append_head, hitems]
      · rw [hpoint, returned?_goOn_of_look hdemand] at hl
        cases hl
  | giveBack l next =>
      obtain ⟨hreturned, hnext⟩ := Point.returned?_of_giveBack hdemand
      obtain ⟨hheld, hlast⟩ := hkept.returned l hreturned
      obtain ⟨hpoint, htaken, hleft⟩ := step_of_giveBack hdemand hheld
      refine ⟨?_, fun l' hl' => ?_⟩
      · have hsplit : h.taken = h.taken.dropLast ++ [.ok l] :=
          (List.dropLast_append_getLast? _ hlast).symm
        rw [htaken, hleft, ← hitems]
        conv_rhs => rw [hsplit, append_append_stream]
        rfl
      · rw [hpoint, hnext] at hl'
        cases hl'

/-- The step is the one that the parser makes on the stream of its lexemes. -/
theorem Kept.step_eq_advance (hkept : Kept text h) :
    (h.step.parser.point, h.step.parser.lexemes.items) =
      h.parser.point.advance h.parser.lexemes.items := by
  unfold Point.advance
  split
  · rename_i next hdemand
    have hstep : h.step.parser = { h.parser with point := next } := by
      simp only [History.step, Parser.step, hdemand]
    rw [hstep]
  · rename_i next hdemand
    obtain ⟨hpoint, -, hleft, -⟩ := step_of_take hdemand
    rw [hpoint, hleft]
  · rename_i next hdemand
    obtain ⟨hpoint, ⟨l, hhead, -, hleft⟩ | ⟨e, hhead, -, hleft⟩⟩ := step_of_look hdemand
    · rw [hpoint, hleft, hhead]
    · rw [hpoint, hleft, hhead]
  · rename_i l next hdemand
    obtain ⟨hheld, -⟩ := hkept.returned l (Point.returned?_of_giveBack hdemand).1
    obtain ⟨hpoint, -, hleft⟩ := step_of_giveBack hdemand hheld
    rw [hpoint, hleft]

/-! ### Whole histories

The invariant goes over any number of steps.  That calls end is taken from what a parser
answers: the steps of a call are steps of the history.
-/

theorem kept_after (text : String) (n : Nat) : Kept text (after text n) := by
  induction n with
  | zero => exact kept_ofText text
  | succ n ih => exact ih.step

/-- Where a history has come to, with the items that are left. -/
def view (h : History) : Point × Stream' (Except ScanError Lexeme) :=
  (h.parser.point, h.parser.lexemes.items)

theorem view_succ (text : String) (n : Nat) :
    (after text (n + 1)).view = (after text n).view.1.advance (after text n).view.2 :=
  (kept_after text n).step_eq_advance

theorem answers_succ (text : String) (n : Nat) :
    (after text (n + 1)).answers =
      (after text n).answers ++ (after text (n + 1)).view.1.answer?.toList := rfl

/-- The steps of a call add its answer and no other. -/
theorem exists_after_of_leads {text : String} {a b : Point × Stream' (Except ScanError Lexeme)}
    (h : Leads a b) (hbusy : a.1.isIdle = false) {operators : Nat}
    {answer : Except ParseError Tree} (hb : b.1 = .idle operators (some answer)) {n : Nat}
    (hn : (after text n).view = a) :
    ∃ m, (after text m).view = b ∧ (after text m).answers = (after text n).answers ++ [answer] := by
  induction h using Relation.ReflTransGen.head_induction_on generalizing n with
  | refl =>
      rw [hb] at hbusy
      cases hbusy
  | @head a c hgoes hleads ih =>
      have hview : (after text (n + 1)).view = c := by
        rw [view_succ, hn, hgoes.2]
      cases hidle : c.1.isIdle with
      | true =>
          -- an idle parser makes no step of the call, so the call has come to its end
          have hend : c = b := by
            rcases hleads.cases_head with heq | ⟨d, hgoes', -⟩
            · exact heq
            · rw [hgoes'.1] at hidle
              cases hidle
          refine ⟨n + 1, hview.trans hend, ?_⟩
          rw [answers_succ, hview, hend, hb]
          rfl
      | false =>
          obtain ⟨m, hm, hanswers⟩ := ih hidle hview
          refine ⟨m, hm, ?_⟩
          have hnone : c.1.answer? = none := by
            cases hpoint : c.1 with
            | idle => simp [hpoint, Point.isIdle] at hidle
            | part | stray | filter | path | pathEnd | phrase | literal | mark => rfl
          rw [hanswers, answers_succ, hview, hnone, Option.toList_none, List.append_nil]

/-- After some steps as many calls as one likes have come to their end, and they have answered what
calls of the reading answer. -/
theorem exists_after_answers (text : String) (k : Nat) :
    ∃ n answer?,
      (after text n).view.1 = .idle ((Reading.ofText text).after k).operators answer? ∧
      Phrased ((Reading.ofText text).after k).size (after text n).view.2
        ((Reading.ofText text).after k).pending ∧
      (after text n).answers =
        (List.range k).map fun i => ((Reading.ofText text).answer i).map Query.toTree := by
  induction k with
  | zero =>
      have hsize : (Reading.ofText text).size = text.utf8ByteSize := by
        rw [Reading.ofText, Text.byteLength_eq_utf8ByteSize, String.ofList_toList]
      refine ⟨0, none, rfl, ?_, rfl⟩
      have hphrases := Phrased.of_text text
      rw [← hsize, ← Lookahead.items_ofText] at hphrases
      exact hphrases
  | succ k ih =>
      obtain ⟨n, answer?, hidle, hphrased, hanswers⟩ := ih
      have hbegin : (after text (n + 1)).view =
          (.part ⟨[], ((Reading.ofText text).after k).operators⟩, (after text n).view.2) := by
        rw [view_succ, hidle]
        rfl
      have hsame : (after text (n + 1)).answers = (after text n).answers := by
        rw [answers_succ, hbegin]
        exact List.append_nil _
      obtain ⟨left, hleft, hleads⟩ := ends_next hphrased
      obtain ⟨m, hm, hadded⟩ := exists_after_of_leads hleads rfl rfl hbegin
      refine ⟨m, _, congrArg Prod.fst hm, ?_, ?_⟩
      · rw [hm, Reading.after, Reading.size_next]
        exact hleft
      · rw [hadded, hsame, hanswers, List.range_succ, List.map_append]
        rfl

/--
**A lexeme of lookahead loses nothing.**  At every point of any number of calls, whatever they have
answered, the items that have been taken and not given back, the lexeme that is held, if any, and
what the scanner gives from then on are together the items of the text followed by its end for ever;
an error that is met counts as taken.  A lexeme is given back only while none is held, and it is the
one that has been taken last.  However many calls are made they come to their end, and they answer
what calls of `Reading.next` answer.
-/
theorem after_lossless (text : String) :
    (∀ n, (((after text n).taken ++ (after text n).parser.lexemes.held) ++ₛ
        (after text n).parser.lexemes.scanner.items = Lexeme.stream text) ∧
      ∀ l next, (after text n).parser.point.demand = .giveBack l next →
        (after text n).parser.lexemes.held? = none ∧
          (after text n).taken.getLast? = some (.ok l)) ∧
    ∀ k, ∃ n, (after text n).answers =
      (List.range k).map fun i => ((Reading.ofText text).answer i).map Query.toTree := by
  constructor
  · intro n
    have hkept := kept_after text n
    constructor
    · rw [append_append_stream]
      exact hkept.items
    · intro l next hdemand
      exact hkept.returned l (Point.returned?_of_giveBack hdemand).1
  · intro k
    obtain ⟨n, -, -, -, hanswers⟩ := exists_after_answers text k
    exact ⟨n, hanswers⟩

-- behind the path the comma has been taken, and one step later it is held
example : (after ".a," 4).taken = [.ok ⟨.field, 0, ".a"⟩, .ok ⟨.comma, 2, ","⟩] ∧
    (after ".a," 5).parser.lexemes.held? = some ⟨.comma, 2, ","⟩ := by
  decide

end History

end Parser

end FieldQuery

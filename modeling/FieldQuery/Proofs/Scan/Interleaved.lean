/-
One stream of items behind two kinds of calls.

A scanner cuts its text as it goes, and two flags say how far it has come.  Behind both
stands one list, the items that have not been given: `take` and `next?` give its first
item and leave the others, so a scanner is at any time the stream of these items,
`take_stream` and `next?_stream`. Whatever calls are made, each therefore gives the item
that is due, `getElem?_answers`.

The two kinds differ behind the last item alone.  `take` gives the end of the text for
ever; the iterator stops as soon as one of its own calls has left no item.  So the
answers there depend on the calls that have been made and not only on their number, and
`iterated` says in which way: it asks whether the iterator made the call that gave the
last item, or one behind it.

The invariant that carries this is that a stopped scanner has no items left.  Every call
keeps it.
-/
import FieldQuery.Proofs.Scan.Lossless
import FieldQuery.Proofs.Scan.Written
import FieldQuery.Query.Scanner

namespace FieldQuery

namespace Scanner

/-! ### The stream behind a scanner

The flag `finished` is no information: it is set just when no item is left,
`isEmpty_pending`. The other flag is.
-/

/-- The items that have not been given. -/
def pending (s : Scanner) : List (Except ScanError Lexeme) :=
  if s.finished then [] else Lexeme.scanFrom s.pos s.rest

/-- The stream that a scanner stands for. -/
def stream (s : Scanner) : LexemeStream := ⟨s.pending, s.size, s.stopped⟩

theorem stream_ofText (text : String) : (ofText text).stream = LexemeStream.ofText text := rfl

/-- What is read is the first of the items that the text is cut into; a terminal item is the only
one. -/
theorem scanFrom_read (s : Scanner) :
    Lexeme.scanFrom s.pos s.rest =
      s.read.1 :: ({ s.read.2 with finished := Lexeme.isTerminal s.read.1 } : Scanner).pending := by
  rw [Lexeme.scanFrom_eq, read]
  cases s.rest.dropWhile Text.isBlank with
  | nil => rfl
  | cons first rest =>
      dsimp only
      cases hmunch : Lexeme.munch (s.pos + Text.byteLength (s.rest.takeWhile Text.isBlank))
          first rest with
      | error e => rfl
      | ok cut =>
          obtain ⟨after, -, hlongest⟩ := Lexeme.longest_of_munch hmunch
          rw [pending, Lexeme.isTerminal, beq_false_of_ne hlongest.ne_eof,
            if_neg Bool.false_ne_true]

theorem size_read (s : Scanner) : s.read.2.size = s.size ∧ s.read.2.stopped = s.stopped := by
  rw [read]
  split
  · exact ⟨rfl, rfl⟩
  · dsimp only
    split <;> exact ⟨rfl, rfl⟩

theorem take_of_not_finished {s : Scanner} (h : s.finished = false) :
    s.take = (s.read.1, { s.read.2 with finished := Lexeme.isTerminal s.read.1 }) := by
  rw [take, h, if_neg Bool.false_ne_true]
  split
  · rename_i hread
    rw [hread]
    rfl
  · rename_i hread
    rw [hread]
    rfl

/-- A scanner has finished exactly when no item is left. -/
theorem isEmpty_pending (s : Scanner) : s.pending.isEmpty = s.finished := by
  rw [pending]
  cases s.finished with
  | true => rfl
  | false =>
      rw [scanFrom_read]
      rfl

/-- Taking from a scanner is taking from its stream. -/
theorem take_stream (s : Scanner) : s.stream.take = (s.take.1, s.take.2.stream) := by
  cases hfinished : s.finished with
  | true =>
      have hpending : s.pending = [] := by rw [pending, hfinished, if_pos rfl]
      have htake : s.take = (.ok (Lexeme.atEnd s.size), s) := by rw [take, hfinished, if_pos rfl]
      rw [htake, stream, hpending]
      rfl
  | false =>
      obtain ⟨hsize, hstopped⟩ := s.size_read
      have hpending : s.pending = s.read.1 ::
          ({ s.read.2 with finished := Lexeme.isTerminal s.read.1 } : Scanner).pending := by
        rw [pending, hfinished, if_neg Bool.false_ne_true, scanFrom_read]
      rw [take_of_not_finished hfinished, stream, hpending, stream, ← hsize, ← hstopped]
      rfl

/-- Iterating a scanner is iterating its stream. -/
theorem next?_stream (s : Scanner) : s.stream.next? = (s.next?.1, s.next?.2.stream) := by
  have hstopped : s.stream.stopped = s.stopped := rfl
  rw [LexemeStream.next?, next?, hstopped]
  cases s.stopped with
  | true => rfl
  | false =>
      have hempty : s.take.2.stream.pending.isEmpty = s.take.2.finished :=
        s.take.2.isEmpty_pending
      rw [if_neg Bool.false_ne_true, if_neg Bool.false_ne_true, take_stream]
      dsimp only
      rw [hempty]
      rfl

/-! ### One call

`due` gives the answer from the list alone.  A scanner is asked in two ways and its
stream in two ways, and both agree in each.
-/

/-- The item that is due, or else what is given behind the last item: the end of the text, or
nothing if the iterator asks and has stopped. -/
def due (size : Nat) (stopped : Bool) (c : Call) :
    Option (Except ScanError Lexeme) → Option (Except ScanError Lexeme)
  | some item => some item
  | none => if c = .next ∧ stopped = true then none else some (.ok (Lexeme.atEnd size))

/-- **What one call does.**  It gives the item that is due and leaves those behind it, and the
iterator stops with a call of its own that leaves no item. -/
theorem call_stream {s : Scanner} (h : s.stopped = true → s.pending = []) (c : Call) :
    (s.call c).1 = due s.size s.stopped c s.pending.head? ∧
      (s.call c).2.stream = ⟨s.pending.tail, s.size,
        s.stopped || (c == .next && s.pending.tail.isEmpty)⟩ := by
  cases c with
  | take =>
      have hanswer : (s.call .take).1 = some s.stream.take.1 := by rw [take_stream]; rfl
      have hleft : (s.call .take).2.stream = s.stream.take.2 := by rw [take_stream]; rfl
      rw [hanswer, hleft, stream]
      cases s.pending with
      | nil => simp [LexemeStream.take, due]
      | cons item rest => simp [LexemeStream.take, due]
  | next =>
      have hanswer : (s.call .next).1 = s.stream.next?.1 := by rw [next?_stream]; rfl
      have hleft : (s.call .next).2.stream = s.stream.next?.2 := by rw [next?_stream]; rfl
      rw [hanswer, hleft, stream]
      cases hstopped : s.stopped with
      | true => simp [LexemeStream.next?, due, h hstopped]
      | false =>
          cases s.pending with
          | nil => simp [LexemeStream.next?, LexemeStream.take, due]
          | cons item rest => simp [LexemeStream.next?, LexemeStream.take, due]

/-! ### All calls

The induction is over the calls.  One call takes one item off the list, so the `k`-th
call is answered with the `k`-th item, and `iterated` is moved along with the calls that
are left.
-/

/-- Whether the iterator has made one of the first `k` calls, the `n`-th or a later one. -/
def iterated (n k : Nat) (calls : List Call) : Bool := ((calls.take k).drop (n - 1)).contains .next

theorem iterated_cons (n k : Nat) (c : Call) (rest : List Call) :
    iterated n (k + 1) (c :: rest) =
      ((c == .next && decide (n ≤ 1)) || iterated (n - 1) k rest) := by
  rw [iterated, iterated, List.take_succ_cons]
  rcases Nat.lt_or_ge 1 n with hlate | hnow
  · obtain ⟨m, rfl⟩ := Nat.exists_eq_add_of_le' hlate
    simp
  · have hfirst : n - 1 = 0 := by omega
    rw [hfirst, List.drop_zero, List.drop_zero, List.contains_cons, BEq.comm, decide_eq_true hnow,
      Bool.and_true]

theorem iterated_iff {n k : Nat} {calls : List Call} :
    iterated n k calls = true ↔ ∃ j, n - 1 ≤ j ∧ j < k ∧ calls[j]? = some .next := by
  rw [iterated, List.contains_iff_mem, List.mem_iff_getElem?]
  simp only [List.getElem?_drop, List.getElem?_take]
  constructor
  · rintro ⟨i, hi⟩
    split at hi
    · rename_i hlt
      exact ⟨n - 1 + i, Nat.le_add_right _ _, hlt, hi⟩
    · cases hi
  · rintro ⟨j, hle, hlt, hj⟩
    obtain ⟨i, rfl⟩ := Nat.exists_eq_add_of_le hle
    exact ⟨i, by rw [if_pos hlt, hj]⟩

/-- The answer to every call is what is due when it is made.  By then the iterator has stopped if
it has made the call that gave the last item, or one behind it. -/
theorem getElem?_answers (calls : List Call) {s : Scanner}
    (h : s.stopped = true → s.pending = []) (k : Nat) :
    (s.answers calls)[k]? = calls[k]?.map fun c =>
      due s.size (s.stopped || iterated s.pending.length k calls) c s.pending[k]? := by
  induction calls generalizing s k with
  | nil => rfl
  | cons c rest ih =>
      obtain ⟨hanswer, hstream⟩ := call_stream h c
      have hpending : (s.call c).2.pending = s.pending.tail :=
        congrArg LexemeStream.pending hstream
      have hsize : (s.call c).2.size = s.size := congrArg LexemeStream.size hstream
      have hstopped : (s.call c).2.stopped =
          (s.stopped || (c == .next && s.pending.tail.isEmpty)) :=
        congrArg LexemeStream.stopped hstream
      rw [answers]
      cases k with
      | zero =>
          have hnone : iterated s.pending.length 0 (c :: rest) = false := by simp [iterated]
          rw [List.getElem?_cons_zero, List.getElem?_cons_zero, Option.map_some, hanswer, hnone,
            Bool.or_false, List.head?_eq_getElem?]
      | succ k =>
          have hkept : (s.call c).2.stopped = true → (s.call c).2.pending = [] := by
            rw [hstopped, hpending, Bool.or_eq_true, Bool.and_eq_true, List.isEmpty_iff]
            rintro (hold | ⟨-, hnew⟩)
            · rw [h hold]
              rfl
            · exact hnew
          have hempty : s.pending.tail.isEmpty = decide (s.pending.length ≤ 1) := by
            cases s.pending with
            | nil => rfl
            | cons item items => cases items <;> simp
          rw [List.getElem?_cons_succ, List.getElem?_cons_succ, ih hkept k, hsize, hstopped,
            hpending, iterated_cons, hempty, List.length_tail, List.getElem?_tail, Bool.or_assoc]

/-! ### One stream -/

/-- What calls of the two kinds answer on a text of this size with these items. -/
structure OneStream (items : List (Except ScanError Lexeme)) (size : Nat) (calls : List Call)
    (answers : List (Option (Except ScanError Lexeme))) : Prop where
  /-- Every call is answered. -/
  length_eq : answers.length = calls.length
  /-- As long as there are items, every call gives the next one, whatever its kind. -/
  item : ∀ k item, k < calls.length → items[k]? = some item → answers[k]? = some (some item)
  /-- Behind the last item `take` gives the end of the text, again and again. -/
  take : ∀ k, items.length ≤ k → calls[k]? = some .take →
    answers[k]? = some (some (.ok (Lexeme.atEnd size)))
  /-- An iterator that has given the last item itself has stopped. -/
  next_of_next : calls[items.length - 1]? = some .next →
    ∀ k, items.length ≤ k → calls[k]? = some .next → answers[k]? = some none
  /-- If `take` has given it, the iterator still gives the end of the text once -/
  next_of_take : calls[items.length - 1]? = some .take →
    ∀ k, items.length ≤ k → calls[k]? = some .next →
      (∀ j, items.length ≤ j → j < k → calls[j]? ≠ some .next) →
        answers[k]? = some (some (.ok (Lexeme.atEnd size)))
  /-- and has stopped after that. -/
  next_after : ∀ j k, items.length ≤ j → j < k → calls[j]? = some .next → calls[k]? = some .next →
    answers[k]? = some none

theorem length_answers (calls : List Call) (s : Scanner) :
    (s.answers calls).length = calls.length := by
  induction calls generalizing s with
  | nil => rfl
  | cons c rest ih => exact congrArg Nat.succ (ih _)

theorem oneStream_answers (calls : List Call) {s : Scanner} (h : s.stopped = false)
    (hsome : s.pending ≠ []) : OneStream s.pending s.size calls (s.answers calls) := by
  have hanswer := fun k => getElem?_answers calls (s := s) (by simp [h]) k
  have hpos := List.length_pos_iff.mpr hsome
  simp only [h, Bool.false_or] at hanswer
  -- what a call of the iterator behind the last item gives, by the calls before it
  have hnext : ∀ k, s.pending.length ≤ k → calls[k]? = some .next →
      (s.answers calls)[k]? = some (if iterated s.pending.length k calls = true then none
        else some (.ok (Lexeme.atEnd s.size))) := by
    intro k hk hc
    rw [hanswer, hc, List.getElem?_eq_none hk]
    simp [due]
  exact {
    length_eq := length_answers calls s
    item := by
      intro k item hk hitem
      rw [hanswer, hitem, List.getElem?_eq_getElem hk]
      rfl
    take := by
      intro k hk hc
      rw [hanswer, hc, List.getElem?_eq_none hk]
      simp [due]
    next_of_next := by
      intro hlast k hk hc
      have hstopped : iterated s.pending.length k calls = true :=
        iterated_iff.mpr ⟨_, Nat.le_refl _, by omega, hlast⟩
      rw [hnext k hk hc, if_pos hstopped]
    next_of_take := by
      intro hlast k hk hc hfirst
      have hgoing : ¬iterated s.pending.length k calls = true := by
        rw [iterated_iff]
        rintro ⟨j, hle, hlt, hj⟩
        rcases Nat.lt_or_ge j s.pending.length with hbefore | hbehind
        · obtain rfl : j = s.pending.length - 1 := by omega
          rw [hlast] at hj
          cases hj
        · exact hfirst j hbehind hlt hj
      rw [hnext k hk hc, if_neg hgoing]
    next_after := by
      intro j k hj hlt hcj hc
      have hstopped : iterated s.pending.length k calls = true :=
        iterated_iff.mpr ⟨j, by omega, hlt, hcj⟩
      rw [hnext k (by omega) hc, if_pos hstopped] }

/--
**A scanner is one stream, however it is asked.**  The text has a list of items, the last one and
no other terminal.  Under any calls of `take` and the iterator in any order, each call gives the
next item until there are none left, the terminal one too, and so an error is given once.  Behind
it `take` gives the end of the text for ever; the iterator gives nothing if it has given the
terminal item itself, and otherwise the end once more and then nothing.
-/
theorem answers_ofText (text : String) :
    (∃ init last, Lexeme.scan text = init ++ [last] ∧ Lexeme.isTerminal last = true ∧
      ∀ item ∈ init, Lexeme.isTerminal item = false) ∧
    ∀ calls, OneStream (Lexeme.scan text) text.utf8ByteSize calls
      ((ofText text).answers calls) := by
  obtain ⟨init, last, hitems, hterminal⟩ := (Lexeme.faithful_scan text).terminal
  refine ⟨⟨init, last, hitems, hterminal⟩, fun calls => ?_⟩
  have hpending : (ofText text).pending = Lexeme.scan text :=
    congrArg LexemeStream.pending (stream_ofText text)
  have hsome : (ofText text).pending ≠ [] := by
    rw [hpending, hitems]
    simp
  have hsize : (ofText text).size = text.utf8ByteSize := by
    rw [ofText, Text.byteLength_eq_utf8ByteSize, String.ofList_toList]
  rw [← hpending, ← hsize]
  exact oneStream_answers calls rfl hsome

-- the error is given to `take`, and the iterator has the end of the text left
example : (ofText " =").answers [.take, .next, .take, .next] =
    [some (.error (.loneEquals 1)), some (.ok ⟨.eof, 2, ""⟩), some (.ok ⟨.eof, 2, ""⟩), none] := by
  decide

end Scanner

end FieldQuery

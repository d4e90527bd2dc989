/-
Reading on after an answer.

A reading can be asked for the next query again and again, and after an error it goes on
with whatever the error has left.  `Leaves` lists what a call can answer, each answer
with what it leaves: nothing behind a query, what follows the phrase at which the text
cannot be cut, everything from a parenthesis or bracket on that stands among the
selectors, and otherwise some end of what follows the `where` whose condition is at
fault.

The measure is the number of phrases that are left.  A call lowers it or the reading is
settled, which is when nothing is left or a parenthesis or bracket stands in front, and
a call does not change a settled reading.  As many calls as there are phrases therefore
settle it, and the answer is the same from there on.

The count of operators that a call passes on to the next is part of the reading and
plays no part here: what a call leaves of the phrases is an end of them whatever the
count is.
-/
import FieldQuery.Proofs.Condition.Refused
import FieldQuery.Proofs.Phrases
import FieldQuery.Query.Reading

namespace FieldQuery

/-! ### The phrases of a text

A text is cut up to where it cannot be cut, so that a broken phrase is the last one.
Dropping it leaves nothing, and this is why the text is found impossible to cut only
once.
-/

namespace Phrase

/-- Nothing follows a broken phrase. -/
def BrokenLast (phrases : List Phrase) : Prop :=
  ∀ fields e rest, .broken fields e :: rest <:+ phrases → rest = []

theorem BrokenLast.of_suffix {phrases rest : List Phrase} (h : BrokenLast phrases)
    (hrest : rest <:+ phrases) : BrokenLast rest :=
  fun fields e more hmore => h fields e more (hmore.trans hrest)

theorem brokenLast_cons_iff {p : Phrase} {rest : List Phrase} :
    BrokenLast (p :: rest) ↔
      (∀ fields e, p = .broken fields e → rest = []) ∧ BrokenLast rest := by
  simp only [BrokenLast, List.suffix_cons_iff]
  constructor
  · intro h
    refine ⟨?_, fun fields e more hmore => h fields e more (.inr hmore)⟩
    rintro fields e rfl
    exact h fields e rest (.inl rfl)
  · rintro ⟨hp, hrest⟩ fields e more (heq | hmore)
    · obtain ⟨rfl, rfl⟩ := List.cons.inj heq
      exact hp fields e rfl
    · exact hrest fields e more hmore

/-- A field joins the phrases of what follows it. -/
theorem exists_consField (field : Lexeme) (phrases : List Phrase) :
    ∃ p rest, consField field phrases = p :: rest ∧ (∀ l, p ≠ .lexeme l) ∧
      rest <:+ phrases ∧ (BrokenLast phrases → BrokenLast (p :: rest)) := by
  unfold consField
  split
  · rename_i first more rest
    refine ⟨_, rest, rfl, by simp, List.suffix_cons _ _, fun h => ?_⟩
    exact brokenLast_cons_iff.mpr ⟨by simp, (brokenLast_cons_iff.mp h).2⟩
  · rename_i fields e rest
    refine ⟨_, rest, rfl, by simp, List.suffix_cons _ _, fun h => ?_⟩
    obtain ⟨hlast, hrest⟩ := brokenLast_cons_iff.mp h
    exact brokenLast_cons_iff.mpr ⟨fun _ _ _ => hlast fields e rfl, hrest⟩
  · refine ⟨_, phrases, rfl, by simp, List.suffix_refl _, fun h => ?_⟩
    exact brokenLast_cons_iff.mpr ⟨by simp, h⟩

theorem length_ofLexemes_le (items : List (Except ScanError Lexeme)) :
    (ofLexemes items).length ≤ items.length := by
  fun_induction ofLexemes items with
  | case1 => exact Nat.le_refl _
  | case2 e rest => exact Nat.succ_le_succ (Nat.zero_le _)
  | case3 l rest htoken => exact Nat.zero_le _
  | case4 l rest htoken ih =>
      obtain ⟨p, more, heq, -, hsuffix, -⟩ := exists_consField l (ofLexemes rest)
      rw [heq]
      exact Nat.succ_le_succ (hsuffix.length_le.trans ih)
  | case5 l rest _ _ ih => exact Nat.succ_le_succ ih

/-- Where the text cannot be cut any further it has its last phrase. -/
theorem brokenLast_ofLexemes (items : List (Except ScanError Lexeme)) :
    BrokenLast (ofLexemes items) := by
  have hnil : BrokenLast [] := by simp [BrokenLast]
  fun_induction ofLexemes items with
  | case1 => exact hnil
  | case2 e rest => exact brokenLast_cons_iff.mpr ⟨fun _ _ _ => rfl, hnil⟩
  | case3 l rest htoken => exact hnil
  | case4 l rest htoken ih =>
      obtain ⟨p, more, heq, -, -, hlast⟩ := exists_consField l (ofLexemes rest)
      rw [heq]
      exact hlast ih
  | case5 l rest _ _ ih => exact brokenLast_cons_iff.mpr ⟨by simp, ih⟩

/-- A lexeme that stands for itself is one of the lexemes. -/
theorem mem_of_lexeme_mem {items : List (Except ScanError Lexeme)} {l : Lexeme}
    (h : .lexeme l ∈ ofLexemes items) : .ok l ∈ items :=
  mem_of_mem_items h (List.mem_singleton.mpr rfl)

end Phrase

namespace Reading

/-! ### What one call answers and leaves

The relation is wider than the function: what is left behind a faulty condition is some
end of the phrases behind the `where`.  Which end it is depends on the fault, and the
measure needs only that it is shorter.
-/

/-- What a call can answer on these phrases, and what it then leaves of them. -/
inductive Leaves (phrases : List Phrase) : Except ParseError Query → List Phrase → Prop
  | query (q : Query) : Leaves phrases (.ok q) []
  /-- The phrase at which the text cannot be cut is gone. -/
  | scan {fields : List Lexeme} {e : ScanError} {left : List Phrase}
      (h : .broken fields e :: left <:+ phrases) : Leaves phrases (.error (.scan e)) left
  /-- A parenthesis or bracket among the selectors stays. -/
  | grouping {l : Lexeme} {rest : List Phrase} (h : .lexeme l :: rest <:+ phrases)
      (hl : l.token.isGrouping = true) :
      Leaves phrases (.error (.unexpected l)) (.lexeme l :: rest)
  /-- A condition is at fault, and at least its `where` is gone. -/
  | condition {w : Lexeme} {e : ParseError} {rest left : List Phrase}
      (h : .lexeme w :: rest <:+ phrases) (he : ∀ error, e ≠ .scan error)
      (hleft : left <:+ rest) : Leaves phrases (.error e) left

theorem Leaves.of_suffix {phrases rest left : List Phrase} {answer : Except ParseError Query}
    (h : Leaves rest answer left) (hrest : rest <:+ phrases) : Leaves phrases answer left := by
  cases h with
  | query q => exact .query q
  | scan h => exact .scan (h.trans hrest)
  | grouping h hl => exact .grouping (h.trans hrest) hl
  | condition h he hleft => exact .condition (h.trans hrest) he hleft

theorem leaves_nextCondition (selectors : List String) (w : Lexeme) (r : Reading) :
    Leaves (.lexeme w :: r.pending) (nextCondition selectors w.pos r).1
      (nextCondition selectors w.pos r).2.pending := by
  have hsuffix := Condition.pending_suffix r.size (.start r.operators) r.pending
  have hself := List.suffix_refl (.lexeme w :: r.pending)
  unfold nextCondition
  dsimp only
  split
  · rename_i e he
    by_cases hscan : ∃ error, e = .scan error
    · obtain ⟨error, rfl⟩ := hscan
      obtain ⟨fields, hbroken⟩ := Condition.broken_of_scan he
      exact .scan (hbroken.trans (List.suffix_cons _ _))
    · exact .condition hself (not_exists.mp hscan) hsuffix
  · exact .condition hself (by simp) hsuffix
  · rename_i tree htree
    rw [Condition.pending_of_ok htree]
    split
    · exact .query _
    · exact .condition hself (by simp) List.nil_suffix

theorem leaves_nextFrom (operators size : Nat) (selectors : List String) (phrases : List Phrase) :
    Leaves phrases (nextFrom operators size selectors phrases).1
      (nextFrom operators size selectors phrases).2.pending := by
  induction phrases generalizing selectors with
  | nil => exact .query _
  | cons p rest ih =>
      cases p with
      | path first more => exact (ih _).of_suffix (List.suffix_cons _ _)
      | broken fields e => exact .scan (List.suffix_refl _)
      | lexeme l =>
          rw [nextFrom]
          split
          · exact leaves_nextCondition selectors l ⟨rest, operators, size⟩
          · split
            · rename_i hl
              exact .grouping (List.suffix_refl _) hl
            · exact (ih _).of_suffix (List.suffix_cons _ _)

theorem leaves_next (r : Reading) : Leaves r.pending r.next.1 r.next.2.pending :=
  leaves_nextFrom r.operators r.size [] r.pending

/-! ### What a call does to the phrases that are left

All of this follows from `Leaves`, one case for each constructor; the functions that
read are not opened again.
-/

section

variable {phrases left : List Phrase} {answer : Except ParseError Query}

theorem Leaves.suffix (h : Leaves phrases answer left) : left <:+ phrases := by
  cases h with
  | query => exact List.nil_suffix
  | scan h => exact (List.suffix_cons _ _).trans h
  | grouping h => exact h
  | condition h _ hleft => exact hleft.trans ((List.suffix_cons _ _).trans h)

/-- Nothing is left, or a parenthesis or bracket stands in front. -/
def Settled (left : List Phrase) : Prop :=
  left = [] ∨ ∃ l rest, left = .lexeme l :: rest ∧ l.token.isGrouping = true

/-- A call settles the reading or leaves fewer phrases. -/
theorem Leaves.settled_or_lt (h : Leaves phrases answer left) :
    Settled left ∨ left.length < phrases.length := by
  cases h with
  | query => exact .inl (.inl rfl)
  | scan h =>
      have := h.length_le
      rw [List.length_cons] at this
      exact .inr this
  | grouping _ hl => exact .inl (.inr ⟨_, _, rfl, hl⟩)
  | condition h _ hleft =>
      have hrest := h.length_le
      rw [List.length_cons] at hrest
      exact .inr (Nat.lt_of_le_of_lt hleft.length_le hrest)

theorem Leaves.eq_nil_of_ok {q : Query} (h : Leaves phrases (.ok q) left) : left = [] := by
  cases h
  rfl

theorem Leaves.eq_nil_of_scan {e : ScanError} (h : Leaves phrases (.error (.scan e)) left)
    (hlast : Phrase.BrokenLast phrases) : left = [] := by
  cases h with
  | scan h => exact hlast _ _ _ h
  | condition _ he => exact absurd rfl (he e)

/-- A settled reading answers with an empty query or points at what stands in front, and it is not
changed. -/
theorem next_of_settled {r : Reading} (h : Settled r.pending) :
    r.next.2 = r ∧ (r.next.1 = .ok ⟨[], none⟩ ∨
      ∃ l, .lexeme l ∈ r.pending ∧ l.token.isGrouping = true ∧
        r.next.1 = .error (.unexpected l)) := by
  obtain ⟨pending, operators, size⟩ := r
  rcases h with rfl | ⟨l, rest, rfl, hl⟩
  · exact ⟨rfl, .inl rfl⟩
  · have hwhere : l.token ≠ .whereKeyword := by
      intro heq
      simp [heq, Token.isGrouping] at hl
    have hnext : next ⟨.lexeme l :: rest, operators, size⟩ =
        (.error (.unexpected l), ⟨.lexeme l :: rest, operators, size⟩) := by
      simp only [next, nextFrom, if_neg hwhere, if_pos hl]
    rw [hnext]
    exact ⟨rfl, .inr ⟨l, List.mem_cons_self, hl, rfl⟩⟩

end

/-! ### One call after the other

The statements about later answers are first made for a settled reading and then for
any, since every reading settles.
-/

/-- The reading after this many calls. -/
def after (r : Reading) : Nat → Reading
  | 0 => r
  | k + 1 => (r.after k).next.2

/-- The answer of the call that comes after `k` others. -/
def answer (r : Reading) (k : Nat) : Except ParseError Query := (r.after k).next.1

variable (r : Reading) {k : Nat}

theorem after_suffix (k : Nat) : (r.after k).pending <:+ r.pending := by
  induction k with
  | zero => exact List.suffix_refl _
  | succ k ih => exact (leaves_next (r.after k)).suffix.trans ih

theorem leaves_after (k : Nat) :
    Leaves (r.after k).pending (r.answer k) (r.after (k + 1)).pending :=
  leaves_next (r.after k)

variable {r}

theorem after_eq_of_settled (h : Settled (r.after k).pending) {m : Nat} (hm : k ≤ m) :
    r.after m = r.after k := by
  induction m, hm using Nat.le_induction with
  | base => rfl
  | succ m _ ih => rw [after, ih, (next_of_settled h).1]

theorem answer_eq_of_settled (h : Settled (r.after k).pending) {m : Nat} (hm : k ≤ m) :
    r.answer m = r.answer k := by
  rw [answer, after_eq_of_settled h hm, answer]

/-- Every call so far has taken a phrase, or the reading is settled. -/
theorem settled_or_le (r : Reading) (k : Nat) :
    Settled (r.after k).pending ∨ (r.after k).pending.length + k ≤ r.pending.length := by
  induction k with
  | zero => exact .inr (Nat.le_refl _)
  | succ k ih =>
      rcases ih with hsettled | hle
      · left
        rwa [after_eq_of_settled hsettled (Nat.le_succ k)]
      · rcases (leaves_after r k).settled_or_lt with hsettled | hlt
        · exact .inl hsettled
        · right
          omega

/-- As many calls as there are phrases settle a reading. -/
theorem settled_after (h : r.pending.length ≤ k) : Settled (r.after k).pending := by
  rcases settled_or_le r k with hsettled | hle
  · exact hsettled
  · exact .inl (List.eq_nil_of_length_eq_zero (by omega))

theorem answer_of_nil (h : (r.after k).pending = []) {m : Nat} (hm : k ≤ m) :
    r.answer m = .ok ⟨[], none⟩ := by
  rw [answer_eq_of_settled (.inl h) hm, answer, next, h, nextFrom]

/--
**Asking again and again comes to an end.**  After a query every answer is the empty one; the text
is found impossible to cut at most once; and after as many calls as the text has items all answers
are the same, the empty query or the complaint about one parenthesis or bracket of the text.
-/
theorem answers_settle (text : String) :
    (∀ k q, (ofText text).answer k = .ok q →
      ∀ m, k < m → (ofText text).answer m = .ok ⟨[], none⟩) ∧
    (∀ k m e e', (ofText text).answer k = .error (.scan e) →
      (ofText text).answer m = .error (.scan e') → k = m) ∧
    ∃ last, (∀ k, (Lexeme.scan text).length ≤ k → (ofText text).answer k = last) ∧
      (last = .ok ⟨[], none⟩ ∨
        ∃ l, .ok l ∈ Lexeme.scan text ∧ l.token.isGrouping = true ∧
          last = .error (.unexpected l)) := by
  have hlast : Phrase.BrokenLast (ofText text).pending := Phrase.brokenLast_ofLexemes _
  -- no call after an error of scanning gives an error
  have hscan : ∀ k m e, (ofText text).answer k = .error (.scan e) → k < m →
      (ofText text).answer m = .ok ⟨[], none⟩ := by
    intro k m e hk hm
    have hleaves := leaves_after (ofText text) k
    rw [hk] at hleaves
    exact answer_of_nil (hleaves.eq_nil_of_scan (hlast.of_suffix (after_suffix _ k))) hm
  refine ⟨?_, ?_, ?_⟩
  · intro k q hk m hm
    have hleaves := leaves_after (ofText text) k
    rw [hk] at hleaves
    exact answer_of_nil hleaves.eq_nil_of_ok hm
  · intro k m e e' hk hm
    rcases Nat.lt_trichotomy k m with hlt | heq | hlt
    · simp [hscan k m e hk hlt] at hm
    · exact heq
    · simp [hscan m k e' hm hlt] at hk
  · have hsettled : Settled ((ofText text).after (Lexeme.scan text).length).pending :=
      settled_after (Phrase.length_ofLexemes_le _)
    refine ⟨_, fun k hk => answer_eq_of_settled hsettled hk, ?_⟩
    refine (next_of_settled hsettled).2.imp_right ?_
    rintro ⟨l, hl, hgrouping, hanswer⟩
    have hfirst : .lexeme l ∈ Phrase.ofText text := (after_suffix _ _).subset hl
    exact ⟨l, Phrase.mem_of_lexeme_mem hfirst, hgrouping, hanswer⟩

end Reading

end FieldQuery

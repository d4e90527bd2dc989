/-
What the reader reads, the grammar derives.

The invariant of a reading explains the lexemes read so far by the state: around every
open group stands a stretch that its outer expression covers, and the innermost stretch
is covered by the expression in hand.  An expression covers empty groups while nothing
has been read, a condition when it is complete, and a condition with an operator behind
it while that operator waits.  Nothing is said about an operator without a left side,
because no reading gets past it.

Beside this the state counts: as many groups are open as there are parentheses left
open, and the two limits have been kept.

Both are kept by every move, and a move reads one phrase.  At the end no group is open
and the expression is complete, so the one stretch that is left is a condition, and it
is all lexemes. Together with the other direction this makes reading and deriving the
same, `run_group_iff`.
-/
import FieldQuery.Proofs.Condition.Move

namespace FieldQuery

namespace Condition

/-! ### The invariant -/

/-- The lexemes of one group that an expression stands for. -/
def Covers : Progress → List Lexeme → Prop
  | .empty, ls => Empties ls
  | .complete t, ls => Derives .condition ls t
  | .awaiting op (some left) _, ls => ∃ front l gap, ls = front ++ l :: gap ∧
      Derives .condition front left ∧ l.token = .operator op ∧ Empties gap
  | .awaiting _ none _, _ => True

/-- The lexemes before the innermost group, up to and including its parenthesis. -/
def Around : List Group → List Lexeme → Prop
  | [], ls => ls = []
  | group :: groups, ls => ∃ outer inner, ls = outer ++ (inner ++ [group.opening]) ∧
      group.opening.token = .leftParen ∧ Around groups outer ∧ Covers group.outer inner

/-- The lexemes of the list that is being read, which an operator is waiting for. -/
def Collects (list? : Option (List Tree)) (p : Progress) (ls : List Lexeme) : Prop :=
  match list? with
  | none => ls = []
  | some ts => (∃ op left? pos, p = .awaiting op left? pos) ∧
      ∃ opening rest, ls = opening :: rest ∧ opening.token = .leftBracket ∧ Listed rest ts

/-- The state is what reading these lexemes leads to. -/
def Explains (s : State) (ls : List Lexeme) : Prop :=
  ∃ outer inner listing, ls = outer ++ (inner ++ listing) ∧ Around s.groups outer ∧
    Covers s.progress inner ∧ Collects s.list? s.progress listing

/-- The state counts the parentheses and the operators among these lexemes. -/
structure Counts (s : State) (before : Nat) (ls : List Lexeme) : Prop where
  depth : opens ls = closes ls + s.groups.length
  within : Within 0 ls
  operators : s.operators = before + operatorCount ls
  few : s.operators ≤ maxOperators

/-! ### How stretches grow

A stretch grows at its end only.  Which of three ways it grows depends on what the
expression was waiting for.
-/

theorem Covers.empties {p : Progress} {ls more : List Lexeme} (h : Covers p ls)
    (hmore : Empties more) : Covers p (ls ++ more) := by
  cases p with
  | empty => exact Empties.append h hmore
  | complete t => exact Derives.append_empties h hmore
  | awaiting op left? pos =>
      cases left? with
      | none => exact trivial
      | some left =>
          obtain ⟨front, l, gap, rfl, hfront, htoken, hgap⟩ := h
          refine ⟨front, l, gap ++ more, ?_, hfront, htoken, hgap.append hmore⟩
          rw [List.append_assoc, List.cons_append]

theorem Covers.right {p : Progress} {ls side : List Lexeme} {t : Tree} (h : Covers p ls)
    (hadmits : Part.right.Admits p) (hside : Derives .right side t) :
    Covers (p.filled t) (ls ++ side) := by
  obtain ⟨op, left, pos, rfl⟩ := hadmits
  obtain ⟨front, l, gap, rfl, hfront, htoken, hgap⟩ := h
  have hwhole := Derives.binary hfront htoken hgap hside .nil
  rwa [List.append_nil, ← List.cons_append, ← List.append_assoc] at hwhole

theorem Covers.operand {p : Progress} {ls side : List Lexeme} {t : Tree} (h : Covers p ls)
    (hadmits : Part.operand.Admits p) (hside : Derives .operand side t) :
    Covers (p.filled t) (ls ++ side) := by
  rcases hadmits with rfl | hadmits
  · have hwhole := Derives.first h hside .nil
    rwa [List.append_nil] at hwhole
  · exact h.right hadmits (.ofOperand hside)

/-! ### Every move keeps the explanation

A move changes the innermost stretch, or opens one, or joins it to the one around it.
-/

theorem Explains.of_inner {s : State} {outer inner : List Lexeme} (hlist : s.list? = none)
    (houter : Around s.groups outer) (hinner : Covers s.progress inner) :
    Explains s (outer ++ inner) := by
  refine ⟨outer, inner, [], by rw [List.append_nil], houter, hinner, ?_⟩
  rw [hlist]
  rfl

theorem Explains.inner {s : State} {ls : List Lexeme} (h : Explains s ls)
    (hlist : s.list? = none) : ∃ outer inner, ls = outer ++ inner ∧ Around s.groups outer ∧
      Covers s.progress inner := by
  obtain ⟨outer, inner, listing, rfl, houter, hinner, hlisting⟩ := h
  rw [hlist] at hlisting
  obtain rfl : listing = [] := hlisting
  exact ⟨outer, inner, by rw [List.append_nil], houter, hinner⟩

/-- At the end of a group its lexemes stand behind its parenthesis and those around it. -/
theorem Explains.group {s : State} {ls : List Lexeme} {group : Group} {groups : List Group}
    (h : Explains s ls) (hlist : s.list? = none) (hgroups : s.groups = group :: groups) :
    ∃ outer around inner, ls = outer ++ (around ++ group.opening :: inner) ∧
      group.opening.token = .leftParen ∧ Around groups outer ∧ Covers group.outer around ∧
      Covers s.progress inner := by
  obtain ⟨outer, inner, rfl, houter, hinner⟩ := h.inner hlist
  rw [hgroups] at houter
  obtain ⟨outer, around, rfl, hopening, houter, haround⟩ := houter
  exact ⟨outer, around, inner, by simp, hopening, houter, haround, hinner⟩

theorem Explains.of_listing {s : State} {outer inner rest : List Lexeme} {opening : Lexeme}
    {ts : List Tree} (hlist : s.list? = some ts) (houter : Around s.groups outer)
    (hinner : Covers s.progress inner)
    (hawaiting : ∃ op left? pos, s.progress = .awaiting op left? pos)
    (hopening : opening.token = .leftBracket) (hrest : Listed rest ts) :
    Explains s (outer ++ (inner ++ opening :: rest)) := by
  refine ⟨outer, inner, opening :: rest, rfl, houter, hinner, ?_⟩
  rw [hlist]
  exact ⟨hawaiting, opening, rest, rfl, hopening, hrest⟩

theorem Explains.listing {s : State} {ls : List Lexeme} {ts : List Tree} (h : Explains s ls)
    (hlist : s.list? = some ts) : ∃ outer inner opening rest,
      ls = outer ++ (inner ++ opening :: rest) ∧ Around s.groups outer ∧
      Covers s.progress inner ∧ (∃ op left? pos, s.progress = .awaiting op left? pos) ∧
      opening.token = .leftBracket ∧ Listed rest ts := by
  obtain ⟨outer, inner, listing, rfl, houter, hinner, hlisting⟩ := h
  rw [hlist] at hlisting
  obtain ⟨hawaiting, opening, rest, rfl, hopening, hrest⟩ := hlisting
  exact ⟨outer, inner, opening, rest, rfl, houter, hinner, hawaiting, hopening, hrest⟩

theorem Explains.step {s s' : State} {p : Phrase} {ls : List Lexeme} (h : Explains s ls)
    (hsound : p.Sound) (hmove : Move s p s') : Explains s' (ls ++ p.lexemes) := by
  cases hmove with
  | @path first more hlist hadmits =>
      obtain ⟨outer, inner, rfl, houter, hinner⟩ := h.inner hlist
      rw [List.append_assoc]
      exact .of_inner hlist houter (hinner.operand hadmits (.path hsound))
  | @literal l t hlist htoken ht hadmits =>
      obtain ⟨outer, inner, rfl, houter, hinner⟩ := h.inner hlist
      rw [List.append_assoc]
      exact .of_inner hlist houter (hinner.operand hadmits (.literal htoken ht))
  | @operator l op left hlist htoken _ hleft =>
      obtain ⟨outer, inner, rfl, houter, hinner⟩ := h.inner hlist
      rw [List.append_assoc]
      rw [hleft] at hinner
      exact .of_inner hlist houter ⟨inner, l, [], rfl, hinner, htoken, .nil⟩
  | @prefixOperator l op hlist htoken _ _ =>
      obtain ⟨outer, inner, rfl, houter, -⟩ := h.inner hlist
      rw [List.append_assoc]
      exact .of_inner hlist houter trivial
  | @opening l hlist htoken _ =>
      obtain ⟨outer, inner, rfl, houter, hinner⟩ := h.inner hlist
      -- what was innermost now stands around the new group
      rw [List.append_assoc, ← List.append_nil (outer ++ _)]
      exact .of_inner hlist ⟨outer, inner, rfl, htoken, houter, hinner⟩ .nil
  | @closingEmpty l group groups hlist htoken hgroups hempty =>
      obtain ⟨outer, around, inner, rfl, hopening, houter, haround, hinner⟩ := h.group hlist hgroups
      rw [hempty] at hinner
      have hpair : Empties (group.opening :: (inner ++ l :: [])) :=
        .pair hopening hinner htoken .nil
      have hall := Explains.of_inner (s := { s with groups := groups, progress := group.outer })
        hlist houter (haround.empties hpair)
      simpa [Phrase.lexemes] using hall
  | @closingTree l group groups t hlist htoken hgroups htree hadmits =>
      obtain ⟨outer, around, inner, rfl, hopening, houter, haround, hinner⟩ := h.group hlist hgroups
      rw [htree] at hinner
      have hgroup : Derives .operand (group.opening :: (inner ++ [l])) t :=
        .group hopening hinner htoken
      have hall := Explains.of_inner
        (s := { s with groups := groups, progress := group.outer.filled t })
        hlist houter (haround.operand hadmits hgroup)
      simpa [Phrase.lexemes] using hall
  | @openingList l op left? pos hlist htoken hprogress =>
      obtain ⟨outer, inner, rfl, houter, hinner⟩ := h.inner hlist
      rw [List.append_assoc]
      exact .of_listing rfl houter hinner ⟨op, left?, pos, hprogress⟩ htoken .nil
  | @comma l ts hlist htoken =>
      obtain ⟨outer, inner, opening, rest, rfl, houter, hinner, hawaiting, hopening, hrest⟩ :=
        h.listing hlist
      have hmore : Listed (rest ++ [l]) ts := by
        simpa using hrest.append (.comma htoken .nil)
      have hall := Explains.of_listing hlist houter hinner hawaiting hopening hmore
      simpa [Phrase.lexemes] using hall
  | @listed l ts t hlist htoken ht =>
      obtain ⟨outer, inner, opening, rest, rfl, houter, hinner, hawaiting, hopening, hrest⟩ :=
        h.listing hlist
      have hmore : Listed (rest ++ [l]) (ts ++ [t]) := hrest.append (.literal htoken ht .nil)
      have hall := Explains.of_listing (s := { s with list? := some (ts ++ [t]) }) rfl houter
        hinner hawaiting hopening hmore
      simpa [Phrase.lexemes] using hall
  | @closingList l ts hlist htoken hadmits =>
      obtain ⟨outer, inner, opening, rest, rfl, houter, hinner, hawaiting, hopening, hrest⟩ :=
        h.listing hlist
      have hright : Part.right.Admits s.progress := by
        rcases hadmits with hempty | hadmits
        · obtain ⟨op, left?, pos, hawaiting⟩ := hawaiting
          simp [hempty] at hawaiting
        · exact hadmits
      have hall := Explains.of_inner
        (s := { s with list? := none, progress := s.progress.filled (.sequence ts) })
        rfl houter (hinner.right hright (.list hopening hrest htoken))
      simpa [Phrase.lexemes] using hall

/-! ### Every move keeps the counts

The counts are kept apart from the explanation, since they speak of all lexemes and not
of stretches.
-/

/-- Lexemes that are neither operators nor parentheses change no count. -/
theorem Counts.plain {s : State} {before : Nat} {ls more : List Lexeme} (h : Counts s before ls)
    (hplain : ∀ l ∈ more, Plain l) : Counts s before (ls ++ more) := by
  obtain ⟨hoperators, hopens, hcloses⟩ := counts_eq_zero hplain
  refine ⟨?_, ?_, ?_, h.few⟩
  · rw [opens_append, closes_append, hopens, hcloses]
    exact h.depth
  · refine h.within.append fun front hfront => ?_
    rw [Nat.zero_add]
    have hzero := counts_eq_zero fun l hl => hplain l (hfront.subset hl)
    have := h.within ls (List.prefix_refl ls)
    rw [opens_append, closes_append, hzero.2.1]
    omega
  · rw [operatorCount_append, hoperators]
    exact h.operators

private theorem within_concat {ls : List Lexeme} {l : Lexeme} (h : Within 0 ls)
    (hroom : opens (ls ++ [l]) ≤ closes (ls ++ [l]) + maxDepth) : Within 0 (ls ++ [l]) := by
  refine h.append fun front hfront => ?_
  rw [Nat.zero_add]
  rcases List.prefix_concat_iff.mp (show front <+: [] ++ [l] from hfront) with rfl | hnil
  · exact hroom
  · obtain rfl := List.prefix_nil.mp hnil
    have := h ls (List.prefix_refl ls)
    rw [List.append_nil]
    omega

theorem Counts.operator {s s' : State} {before : Nat} {ls : List Lexeme} {l : Lexeme}
    {op : Operator} (h : Counts s before ls) (htoken : l.token = .operator op)
    (hroom : s.operators < maxOperators) (hgroups : s'.groups = s.groups)
    (hoperators : s'.operators = s.operators + 1) : Counts s' before (ls ++ [l]) := by
  have hopens : opens (ls ++ [l]) = opens ls := by simp [opens_cons, htoken]
  have hcloses : closes (ls ++ [l]) = closes ls := by simp [closes_cons, htoken]
  refine ⟨?_, ?_, ?_, ?_⟩
  · rw [hopens, hcloses, hgroups]
    exact h.depth
  · refine within_concat h.within ?_
    have := h.within ls (List.prefix_refl ls)
    omega
  · have := h.operators
    simp only [operatorCount_append, operatorCount_cons, operatorCount_nil, isOperator, htoken]
    simp
    omega
  · omega

theorem Counts.opening {s s' : State} {before : Nat} {ls : List Lexeme} {l : Lexeme}
    (h : Counts s before ls) (htoken : l.token = .leftParen)
    (hroom : s.groups.length < maxDepth) (hgroups : s'.groups.length = s.groups.length + 1)
    (hoperators : s'.operators = s.operators) : Counts s' before (ls ++ [l]) := by
  have hopens : opens (ls ++ [l]) = opens ls + 1 := by simp [opens_cons, htoken]
  have hcloses : closes (ls ++ [l]) = closes ls := by simp [closes_cons, htoken]
  have hsame : operatorCount (ls ++ [l]) = operatorCount ls := by
    simp [operatorCount_cons, isOperator, htoken]
  have hdepth := h.depth
  refine ⟨by omega, within_concat h.within (by omega), ?_, ?_⟩
  · rw [hsame, hoperators]
    exact h.operators
  · rw [hoperators]
    exact h.few

theorem Counts.closing {s s' : State} {before : Nat} {ls : List Lexeme} {l : Lexeme}
    (h : Counts s before ls) (htoken : l.token = .rightParen)
    (hgroups : s.groups.length = s'.groups.length + 1)
    (hoperators : s'.operators = s.operators) : Counts s' before (ls ++ [l]) := by
  have hopens : opens (ls ++ [l]) = opens ls := by simp [opens_cons, htoken]
  have hcloses : closes (ls ++ [l]) = closes ls + 1 := by simp [closes_cons, htoken]
  have hsame : operatorCount (ls ++ [l]) = operatorCount ls := by
    simp [operatorCount_cons, isOperator, htoken]
  have hdepth := h.depth
  have hwithin := h.within ls (List.prefix_refl ls)
  refine ⟨by omega, within_concat h.within (by omega), ?_, ?_⟩
  · rw [hsame, hoperators]
    exact h.operators
  · rw [hoperators]
    exact h.few

theorem Counts.step {s s' : State} {p : Phrase} {before : Nat} {ls : List Lexeme}
    (h : Counts s before ls) (hsound : p.Sound) (hmove : Move s p s') :
    Counts s' before (ls ++ p.lexemes) := by
  have hbracket : ∀ l : Lexeme, l.token = .leftBracket ∨ l.token = .rightBracket → Plain l := by
    intro l hl
    rcases hl with hl | hl <;> simp [Plain, isOperator, hl]
  have hsingle : ∀ l : Lexeme, Plain l → ∀ l' ∈ [l], Plain l' := by
    intro l hl l' hl'
    obtain rfl := List.mem_singleton.mp hl'
    exact hl
  cases hmove with
  | path _ _ =>
      have hall := h.plain fun l hl => plain_of_field (hsound l hl)
      exact ⟨hall.depth, hall.within, hall.operators, hall.few⟩
  | literal _ htoken _ _ =>
      have hall := h.plain (hsingle _ (plain_of_isLiteral htoken))
      exact ⟨hall.depth, hall.within, hall.operators, hall.few⟩
  | operator _ htoken hroom _ => exact h.operator htoken hroom rfl rfl
  | prefixOperator _ htoken hroom _ => exact h.operator htoken hroom rfl rfl
  | opening _ htoken hroom => exact h.opening htoken hroom rfl rfl
  | closingEmpty _ htoken hgroups _ =>
      exact h.closing htoken (by rw [hgroups]; rfl) rfl
  | closingTree _ htoken hgroups _ _ =>
      exact h.closing htoken (by rw [hgroups]; rfl) rfl
  | openingList _ htoken _ =>
      have hall := h.plain (hsingle _ (hbracket _ (.inl htoken)))
      exact ⟨hall.depth, hall.within, hall.operators, hall.few⟩
  | comma _ htoken => exact h.plain (hsingle _ (plain_of_comma htoken))
  | listed _ htoken _ =>
      have hall := h.plain (hsingle _ (plain_of_isLiteral htoken))
      exact ⟨hall.depth, hall.within, hall.operators, hall.few⟩
  | closingList _ htoken _ =>
      have hall := h.plain (hsingle _ (hbracket _ (.inr htoken)))
      exact ⟨hall.depth, hall.within, hall.operators, hall.few⟩

/-! ### A whole reading

The run is an induction over the phrases, with the lexemes of those that have been read
in front.
-/

/-- Both invariants hold behind any number of steps. -/
theorem explains_steps {before : Nat} (phrases : List Phrase) :
    ∀ (s s' : State) (ls : List Lexeme), Explains s ls → Counts s before ls →
      (∀ p ∈ phrases, p.Sound) → s.steps phrases = some s' →
      Explains s' (ls ++ phrases.flatMap Phrase.lexemes) ∧
        Counts s' before (ls ++ phrases.flatMap Phrase.lexemes) := by
  induction phrases with
  | nil =>
      intro s s' ls hexplains hcounts _ hsteps
      obtain rfl := Option.some.inj hsteps
      rw [List.flatMap_nil, List.append_nil]
      exact ⟨hexplains, hcounts⟩
  | cons p rest ih =>
      intro s s' ls hexplains hcounts hsound hsteps
      unfold State.steps at hsteps
      split at hsteps
      · rename_i next hnext
        have hp := hsound p List.mem_cons_self
        have hmove := move_of_step hnext
        rw [List.flatMap_cons, ← List.append_assoc]
        exact ih next s' (ls ++ p.lexemes) (hexplains.step hp hmove) (hcounts.step hp hmove)
          (fun q hq => hsound q (List.mem_cons_of_mem _ hq)) hsteps
      · simp at hsteps

/-- A state that has a tree to give has read a condition. -/
theorem Explains.derives {s : State} {ls : List Lexeme} {size : Nat} {t : Tree}
    (h : Explains s ls) (hresult : s.result size = .ok (some t)) : Derives .condition ls t := by
  unfold State.result at hresult
  cases hlist : s.list? with
  | some ts => simp [hlist] at hresult
  | none =>
      cases hgroups : s.groups with
      | cons group groups => simp [hlist, hgroups] at hresult
      | nil =>
          simp only [hlist, hgroups] at hresult
          obtain ⟨outer, inner, rfl, houter, hinner⟩ := h.inner hlist
          rw [hgroups] at houter
          obtain rfl : outer = [] := houter
          cases hprogress : s.progress with
          | empty => simp [hprogress, Progress.result] at hresult
          | awaiting op left? pos => simp [hprogress, Progress.result] at hresult
          | complete tree =>
              simp only [hprogress, Progress.result, Except.ok.injEq, Option.some.injEq] at hresult
              rw [hprogress] at hinner
              exact hresult ▸ hinner

/-! ### Reading and deriving are the same -/

/-- The reader gives a tree for exactly the lexemes that derive it within the limits. -/
theorem run_group_iff {ls : List Lexeme} (heof : ∀ l ∈ ls, l.token ≠ .eof) (size : Nat)
    (t : Tree) :
    (run size (.start 0) (Phrase.group ls)).tree? = .ok (some t) ↔
      Derives .condition ls t ∧ Within 0 ls ∧ operatorCount ls ≤ maxOperators := by
  rw [run_eq_ok_iff]
  constructor
  · rintro ⟨s', hsteps, hresult⟩
    have hstart : Explains (.start 0) [] := ⟨[], [], [], rfl, rfl, Empties.nil, rfl⟩
    have hcounts : Counts (.start 0) 0 [] := by
      refine ⟨rfl, ?_, rfl, Nat.zero_le _⟩
      intro front hfront
      obtain rfl := List.prefix_nil.mp hfront
      exact Nat.zero_le _
    obtain ⟨hexplains, hcounts⟩ := explains_steps (Phrase.group ls) (.start 0) s' [] hstart
      hcounts (Phrase.sound_group heof) hsteps
    rw [List.nil_append, Phrase.lexemes_group heof] at hexplains hcounts
    have hfew := hcounts.few
    rw [hcounts.operators, Nat.zero_add] at hfew
    exact ⟨hexplains.derives hresult, hcounts.within, hfew⟩
  · rintro ⟨hderives, hwithin, hfew⟩
    refine ⟨_, fills_of_derives hderives (.start 0) rfl rfl hwithin ?_, rfl⟩
    show 0 + operatorCount ls ≤ maxOperators
    omega

end Condition

end FieldQuery

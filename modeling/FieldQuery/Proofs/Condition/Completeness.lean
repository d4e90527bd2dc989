/-
What the grammar derives, the reader reads.

`State.steps` follows the reader through phrases that all make a step.  The statement
that carries the induction over derivations says what the reader does on a part of a
condition in the middle of things, with groups open around it and an operator perhaps
waiting: it ends in the state it began in, except that the tree of the part has been put
into the expression and its operators have been counted.  That statement is `Fills`, and
every production of the grammar keeps it.

The limits come in as hypotheses about the whole part.  They are split where the part
is, so no production has to know how many groups are open around it or how many
operators came before.

Phrases are grouped before they are read, and grouping could join a field of one part to
a field of the next.  It never does: between two parts there is an operator, a
parenthesis or a bracket.
-/
import FieldQuery.Proofs.Condition.Grammar
import FieldQuery.Proofs.Phrases

namespace FieldQuery

namespace Condition

/-! ### Steps in a row

A step may refuse its phrase, and then the rest of the phrases does not matter.
Following only the steps that succeed gives an equation for two stretches in a row.
-/

/-- The state after phrases that all make a step. -/
def State.steps (s : State) : List Phrase → Option State
  | [] => some s
  | p :: rest =>
    match s.step p with
    | .ok s' => s'.steps rest
    | .error _ => none

@[simp] theorem State.steps_nil (s : State) : s.steps [] = some s := rfl

theorem State.steps_cons {s next final : State} {p : Phrase} {rest : List Phrase}
    (h : s.step p = .ok next) (hrest : next.steps rest = some final) :
    s.steps (p :: rest) = some final := by
  simp only [steps, h, hrest]

theorem State.steps_append {s middle final : State} {phrases more : List Phrase}
    (h : s.steps phrases = some middle) (hmore : middle.steps more = some final) :
    s.steps (phrases ++ more) = some final := by
  induction phrases generalizing s with
  | nil =>
      obtain rfl := Option.some.inj h
      exact hmore
  | cons p rest ih =>
      rw [List.cons_append]
      cases hstep : s.step p with
      | ok next =>
          simp only [steps, hstep] at h
          exact steps_cons hstep (ih h)
      | error e => simp [steps, hstep] at h

/-- A reading that gives no error has made a step for every phrase. -/
theorem run_eq_ok_iff (size : Nat) (s : State) (phrases : List Phrase) (tree? : Option Tree) :
    (run size s phrases).tree? = .ok tree? ↔
      ∃ s', s.steps phrases = some s' ∧ s'.result size = .ok tree? := by
  induction phrases generalizing s with
  | nil => simp [run]
  | cons p rest ih =>
      cases hstep : s.step p with
      | ok s' => simp only [run, State.steps, hstep, ih]
      | error e => cases e <;> simp [run, State.steps, hstep]

/-- Behind phrases that all make a step the reading goes on from the state that they lead to. -/
theorem run_of_steps {s middle : State} {phrases : List Phrase} (h : s.steps phrases = some middle)
    (size : Nat) (more : List Phrase) : run size s (phrases ++ more) = run size middle more := by
  induction phrases generalizing s with
  | nil =>
      obtain rfl := Option.some.inj h
      rfl
  | cons p rest ih =>
      cases hstep : s.step p with
      | ok next =>
          simp only [State.steps, hstep] at h
          simp only [List.cons_append, run, hstep, ih h]
      | error e => simp [State.steps, hstep] at h

/-! ### Placing an operand

An expression has room for an operand at its beginning and behind an operator.
-/

/-- The expression after an operand has been placed in it. -/
def Progress.filled (p : Progress) (operand : Tree) : Progress :=
  match p with
  | .awaiting op (some left) _ => .complete (.binary op left operand)
  | _ => .complete operand

/-- Where a part of a condition can begin. -/
def Part.Admits (part : Part) (p : Progress) : Prop :=
  match part with
  | .operand => p = .empty ∨ ∃ op left pos, p = .awaiting op (some left) pos
  | .right => ∃ op left pos, p = .awaiting op (some left) pos
  | .condition => p = .empty

theorem State.place_of_admits {s : State} (h : Part.operand.Admits s.progress) (operand : Tree)
    (first : Lexeme) :
    s.place operand first = .ok { s with progress := s.progress.filled operand } := by
  unfold State.place
  rcases h with h | ⟨op, left, pos, h⟩ <;> rw [h] <;> rfl

/-! ### Reading single lexemes

One equation for each kind of lexeme, under the condition that it is accepted.
-/

theorem State.step_lexeme {s : State} (h : s.list? = none) (l : Lexeme) :
    s.step (.lexeme l) = s.stepLexeme l := by
  simp [step, h]

theorem State.step_path {s : State} (h : s.list? = none) (first : Lexeme) (more : List Lexeme) :
    s.step (.path first more) = s.place (.path (Phrase.pathText first more)) first := by
  simp [step, h]

theorem State.step_opening {s : State} {l : Lexeme} (h : s.list? = none)
    (htoken : l.token = .leftParen) (hroom : s.groups.length < maxDepth) :
    s.step (.lexeme l) =
      .ok { s with groups := ⟨l, s.progress⟩ :: s.groups, progress := .empty } := by
  rw [step_lexeme h]
  simp only [stepLexeme, htoken, openGroup]
  rw [if_neg (Nat.not_le.mpr hroom)]

theorem State.step_closing {s : State} {l : Lexeme} (h : s.list? = none)
    (htoken : l.token = .rightParen) : s.step (.lexeme l) = s.closeGroup l := by
  rw [step_lexeme h]
  simp only [stepLexeme, htoken]

theorem State.step_literal {s : State} {l : Lexeme} {t : Tree} (h : s.list? = none)
    (htoken : l.token.isLiteral = true) (ht : l.literal? = some t) :
    s.step (.lexeme l) = s.place t l := by
  rw [step_lexeme h]
  rcases Token.isLiteral_iff.mp htoken with h | h | h | h <;>
    simp only [stepLexeme, h, stepLiteral, ht]

theorem State.step_operator {s : State} {l : Lexeme} {op : Operator} {left : Tree}
    (h : s.list? = none) (htoken : l.token = .operator op) (hleft : s.progress = .complete left)
    (hroom : s.operators < maxOperators) :
    s.step (.lexeme l) =
      .ok { s with progress := .awaiting op (some left) l.pos, operators := s.operators + 1 } := by
  rw [step_lexeme h]
  simp only [stepLexeme, htoken, stepOperator, hleft]
  rw [if_neg (Nat.not_le.mpr hroom)]

/-! ### Reading a list -/

/-- Inside brackets commas are passed over and literals are collected. -/
theorem steps_of_listed {ls : List Lexeme} {ts : List Tree} (h : Listed ls ts) :
    ∀ (s : State) (before : List Tree), s.list? = some before →
      s.steps (ls.map .lexeme) = some { s with list? := some (before ++ ts) } := by
  induction h with
  | nil =>
      intro s before hs
      rw [List.append_nil, ← hs]
      rfl
  | @comma l ls ts htoken _ ih =>
      intro s before hs
      have hstep : s.step (.lexeme l) = .ok s := by
        simp only [State.step, hs, State.stepList, htoken]
      exact State.steps_cons hstep (ih s before hs)
  | @literal l ls t ts htoken ht _ ih =>
      intro s before hs
      have hstep : s.step (.lexeme l) = .ok { s with list? := some (before ++ [t]) } := by
        rcases Token.isLiteral_iff.mp htoken with h | h | h | h <;>
          simp only [State.step, hs, State.stepList, h, ht]
      have hrest := ih { s with list? := some (before ++ [t]) } (before ++ [t]) rfl
      rw [List.append_assoc] at hrest
      exact State.steps_cons hstep hrest

/-! ### Reading a group

A group begins with an empty expression inside, and the state around it waits on the stack.  What
its end makes of that state depends on what stands inside alone: an empty group leaves it as it was,
and the tree of any other is put into the expression around it.
-/

/-- The state behind an opening parenthesis. -/
def State.inside (s : State) (opening : Lexeme) : State :=
  { s with groups := ⟨opening, s.progress⟩ :: s.groups, progress := .empty }

theorem group_parentheses {opening closing : Lexeme} {inner : List Lexeme}
    (hopening : opening.token = .leftParen) (hinner : ∀ l ∈ inner, l.token ≠ .eof)
    (hclosing : closing.token = .rightParen) (rest : List Lexeme) :
    Phrase.group (opening :: (inner ++ closing :: rest)) =
      .lexeme opening :: (Phrase.group inner ++ .lexeme closing :: Phrase.group rest) := by
  have hseam : ∀ l ∈ (closing :: rest).head?, l.token ≠ .field := by
    intro l hl
    obtain rfl := Option.some.inj hl
    simp [hclosing]
  rw [Phrase.group_other (by simp [hopening]) (by simp [hopening]),
    Phrase.group_append hinner (.inr hseam),
    Phrase.group_other (by simp [hclosing]) (by simp [hclosing])]

theorem State.step_closing_empty {s : State} {closing : Lexeme} (opening : Lexeme)
    (hs : s.list? = none) (hclosing : closing.token = .rightParen) :
    (s.inside opening).step (.lexeme closing) = .ok s :=
  (step_closing (s := s.inside opening) hs hclosing).trans rfl

theorem State.step_closing_complete {s : State} {closing : Lexeme} (opening : Lexeme)
    (hs : s.list? = none) (hclosing : closing.token = .rightParen)
    (hadmits : Part.operand.Admits s.progress) (t : Tree) (operators : Nat) :
    State.step { s.inside opening with progress := .complete t, operators := operators }
        (.lexeme closing) =
      .ok { s with progress := s.progress.filled t, operators := operators } := by
  refine (step_closing ?_ hclosing).trans ?_
  · exact hs
  · exact place_of_admits (s := { s with operators := operators }) hadmits t opening

/-- Empty groups leave the state as it is. -/
theorem steps_of_empties {ls : List Lexeme} (h : Empties ls) :
    ∀ s : State, s.list? = none → Within s.groups.length ls →
      s.steps (Phrase.group ls) = some s := by
  induction h with
  | nil =>
      intro s _ _
      rfl
  | @pair opening closing inner rest hopening hinner hclosing _ ihInner ihRest =>
      intro s hs hwithin
      obtain ⟨hroom, hinside⟩ := hwithin.opened hopening
      rw [group_parentheses hopening hinner.ne_eof hclosing]
      have hopen : s.step (.lexeme opening) = .ok (s.inside opening) :=
        State.step_opening hs hopening hroom
      have hinner' := ihInner (s.inside opening) hs hinside.front
      have hclose := State.step_closing_empty opening hs hclosing
      have hrest := ihRest s hs ((hinside.back hinner.counts.2).closed hclosing)
      exact State.steps_cons hopen (State.steps_append hinner' (State.steps_cons hclose hrest))

/-! ### Reading what the grammar derives

Each production of the grammar keeps `Fills`: if the reader does so on the parts, it does so on the
whole.  A part with empty groups around it is the same part, and only the productions that open a
group or read an operator change the state that the inner parts begin in.
-/

/-- What the reader does on the lexemes of a part, wherever the part can begin: it puts the tree
into the expression and counts the operators. -/
def Fills (part : Part) (ls : List Lexeme) (t : Tree) : Prop :=
  ∀ s : State, s.list? = none → part.Admits s.progress → Within s.groups.length ls →
    s.operators + operatorCount ls ≤ maxOperators →
      s.steps (Phrase.group ls) = some { s with
        progress := s.progress.filled t
        operators := s.operators + operatorCount ls }

theorem fills_path {first : Lexeme} {more : List Lexeme}
    (hfields : ∀ l ∈ first :: more, l.token = .field) :
    Fills .operand (first :: more) (.path (Phrase.pathText first more)) := by
  intro s hs hadmits _ _
  have hcount := (counts_eq_zero fun l hl => plain_of_field (hfields l hl)).1
  rw [Phrase.group_fields first more hfields, hcount]
  have hstep : s.step (.path first more) = .ok _ :=
    (State.step_path hs first more).trans (State.place_of_admits hadmits _ first)
  exact State.steps_cons hstep rfl

theorem fills_literal {l : Lexeme} {t : Tree} (htoken : l.token.isLiteral = true)
    (ht : l.literal? = some t) : Fills .operand [l] t := by
  intro s hs hadmits _ _
  have hgroup : Phrase.group [l] = [.lexeme l] := by
    refine Phrase.group_others fun l' hl' => ?_
    obtain rfl := List.mem_singleton.mp hl'
    refine ⟨?_, ?_⟩ <;> intro hother <;> simp [hother, Token.isLiteral_iff] at htoken
  have hcount : operatorCount [l] = 0 := by
    rw [operatorCount_cons]
    simp [(plain_of_isLiteral htoken).1]
  rw [hgroup, hcount]
  have hstep : s.step (.lexeme l) = .ok _ :=
    (State.step_literal hs htoken ht).trans (State.place_of_admits hadmits t l)
  exact State.steps_cons hstep rfl

theorem fills_group {opening closing : Lexeme} {inner : List Lexeme} {t : Tree}
    (hopening : opening.token = .leftParen) (hinner : Derives .condition inner t)
    (hclosing : closing.token = .rightParen) (ih : Fills .condition inner t) :
    Fills .operand (opening :: (inner ++ [closing])) t := by
  intro s hs hadmits hwithin hcount
  obtain ⟨hroom, hinside⟩ := hwithin.opened hopening
  have hsame : operatorCount (opening :: (inner ++ [closing])) = operatorCount inner := by
    simp [operatorCount_cons, isOperator, hopening, hclosing]
  rw [hsame] at hcount ⊢
  rw [group_parentheses hopening hinner.ne_eof hclosing]
  have hopen : s.step (.lexeme opening) = .ok (s.inside opening) :=
    State.step_opening hs hopening hroom
  have hinner' := ih (s.inside opening) hs rfl hinside.front hcount
  -- closing the group places its tree in the expression around it
  have hclose := State.step_closing_complete opening hs hclosing hadmits t
    (s.operators + operatorCount inner)
  exact State.steps_cons hopen (State.steps_append hinner' (State.steps_cons hclose rfl))

theorem group_brackets {opening closing : Lexeme} {inner : List Lexeme} {ts : List Tree}
    (hopening : opening.token = .leftBracket) (hinner : Listed inner ts)
    (hclosing : closing.token = .rightBracket) :
    Phrase.group (opening :: (inner ++ [closing])) =
      .lexeme opening :: (inner.map .lexeme ++ [.lexeme closing]) := by
  rw [Phrase.group_others]
  · rw [List.map_cons, List.map_append, List.map_singleton]
  · intro l hl
    rcases List.mem_cons.mp hl with rfl | hl
    · simp [hopening]
    · rcases List.mem_append.mp hl with hl | hl
      · exact (hinner.plain l hl).2
      · obtain rfl := List.mem_singleton.mp hl
        simp [hclosing]

theorem fills_list {opening closing : Lexeme} {inner : List Lexeme} {ts : List Tree}
    (hopening : opening.token = .leftBracket) (hinner : Listed inner ts)
    (hclosing : closing.token = .rightBracket) :
    Fills .right (opening :: (inner ++ [closing])) (.sequence ts) := by
  intro s hs hadmits _ _
  have hplain := counts_eq_zero fun l hl => (hinner.plain l hl).1
  have hsame : operatorCount (opening :: (inner ++ [closing])) = 0 := by
    simp [operatorCount_cons, isOperator, hopening, hclosing, hplain.1]
  rw [group_brackets hopening hinner hclosing, hsame]
  have hopen : s.step (.lexeme opening) = .ok { s with list? := some [] } := by
    obtain ⟨op, left, pos, hprogress⟩ := hadmits
    rw [State.step_lexeme hs]
    simp only [State.stepLexeme, hopening, State.openList, hprogress]
  have hlist := steps_of_listed hinner { s with list? := some [] } [] rfl
  have hclose : State.step { s with list? := some ts } (.lexeme closing) =
      .ok { s with progress := s.progress.filled (.sequence ts) } := by
    simp only [State.step, State.stepList, hclosing]
    rw [← hs]
    exact State.place_of_admits (s := s) (.inr hadmits) (.sequence ts) closing
  exact State.steps_cons hopen (State.steps_append hlist (State.steps_cons hclose rfl))

/-- Empty groups in front of a part and behind it change nothing. -/
theorem Fills.surround {part : Part} {before ls after : List Lexeme} {t : Tree}
    (ih : Fills part ls t) (h : Derives part ls t) (hbefore : Empties before)
    (hafter : Empties after) : Fills part (before ++ (ls ++ after)) t := by
  intro s hs hadmits hwithin hcount
  have hsame : operatorCount (before ++ (ls ++ after)) = operatorCount ls := by
    simp [hbefore.counts, hafter.counts]
  rw [hsame] at hcount ⊢
  rw [Phrase.group_append hbefore.ne_eof (.inl hbefore.last_ne_field),
    Phrase.group_append h.ne_eof (.inr hafter.head_ne_field)]
  have hback := hwithin.back hbefore.counts.2
  have hpart := ih s hs hadmits hback.front hcount
  have hafter' := steps_of_empties hafter
    { s with
      progress := s.progress.filled t
      operators := s.operators + operatorCount ls } hs (hback.back h.balanced)
  exact State.steps_append (steps_of_empties hbefore s hs hwithin.front)
    (State.steps_append hpart hafter')

theorem fills_binary {front behind : List Lexeme} {l : Lexeme} {op : Operator} {left right : Tree}
    (hleft : Derives .condition front left) (htoken : l.token = .operator op)
    (ihLeft : Fills .condition front left) (ihRight : Fills .right behind right) :
    Fills .condition (front ++ l :: behind) (.binary op left right) := by
  intro s hs hadmits hwithin hcount
  have hempty : s.progress = .empty := hadmits
  have hsame : operatorCount (front ++ l :: behind) =
      operatorCount front + 1 + operatorCount behind := by
    simp [operatorCount_cons, isOperator, htoken]
    omega
  have hseam : ∀ l' ∈ (l :: behind).head?, l'.token ≠ .field := by
    intro l' hl'
    obtain rfl := Option.some.inj hl'
    simp [htoken]
  rw [hsame] at hcount ⊢
  rw [Phrase.group_append hleft.ne_eof (.inr hseam),
    Phrase.group_other (by simp [htoken]) (by simp [htoken])]
  have hback : Within s.groups.length ([l] ++ behind) := hwithin.back hleft.balanced
  have hbehind : Within s.groups.length behind :=
    hback.back (by simp [opens_cons, closes_cons, htoken])
  -- the left side, the operator and the right side, each from the state behind the one before
  have hfront := ihLeft s hs hadmits hwithin.front (by omega)
  have hfilled : s.progress.filled left = .complete left := by
    rw [hempty]
    rfl
  rw [hfilled] at hfront
  have hoperator := State.step_operator
    (s := { s with
      progress := .complete left
      operators := s.operators + operatorCount front }) hs htoken rfl
    (by show s.operators + operatorCount front < maxOperators; omega)
  have hright := ihRight
    { s with
      progress := .awaiting op (some left) l.pos
      operators := s.operators + operatorCount front + 1 } hs ⟨op, left, l.pos, rfl⟩ hbehind
    (by show s.operators + operatorCount front + 1 + _ ≤ maxOperators; omega)
  rw [State.steps_append hfront (State.steps_cons hoperator hright), hempty]
  simp only [Progress.filled, Nat.add_assoc]

/-- **The reader puts the tree of every part that the grammar derives into the expression.** -/
theorem fills_of_derives {part : Part} {ls : List Lexeme} {t : Tree} (h : Derives part ls t) :
    Fills part ls t := by
  induction h with
  | path hfields => exact fills_path hfields
  | literal htoken ht => exact fills_literal htoken ht
  | group hopening hinner hclosing ih => exact fills_group hopening hinner hclosing ih
  | ofOperand _ ih =>
      intro s hs hadmits
      exact ih s hs (.inr hadmits)
  | list hopening hinner hclosing => exact fills_list hopening hinner hclosing
  | first hbefore hoperand hafter ih =>
      intro s hs hadmits
      exact ih.surround hoperand hbefore hafter s hs (.inl hadmits)
  | binary hleft htoken hgap hright hafter ihLeft ihRight =>
      exact fills_binary hleft htoken ihLeft (ihRight.surround hright hgap hafter)

end Condition

end FieldQuery

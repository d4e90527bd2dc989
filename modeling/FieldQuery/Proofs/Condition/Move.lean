/-
What a step can do.

`Move` lists the steps of the reader that succeed, each with the condition under which
it is made and the state that it leads to.  `move_of_step` is the only place where the
step function is taken apart; invariants of the reader are case analyses of `Move`.

There are eleven, and most of them come in two kinds.  An operator may have a left side
to take or none, and a group may close on a tree or on nothing; what is put into an
expression is put there in the same way whatever it is.  The refusals are not listed
here.  A reading ends with the first of them, so an invariant has nothing to say about
it.
-/
import FieldQuery.Proofs.Condition.Completeness

namespace FieldQuery

namespace Condition

/-- A step that succeeds, from one state over a phrase to the next state. -/
inductive Move : State → Phrase → State → Prop
  /-- A path is placed. -/
  | path {s : State} {first : Lexeme} {more : List Lexeme} (hlist : s.list? = none)
      (hadmits : Part.operand.Admits s.progress) :
      Move s (.path first more)
        { s with progress := s.progress.filled (.path (Phrase.pathText first more)) }
  /-- A literal is placed. -/
  | literal {s : State} {l : Lexeme} {t : Tree} (hlist : s.list? = none)
      (htoken : l.token.isLiteral = true) (ht : l.literal? = some t)
      (hadmits : Part.operand.Admits s.progress) :
      Move s (.lexeme l) { s with progress := s.progress.filled t }
  /-- An operator takes what has been read as its left side. -/
  | operator {s : State} {l : Lexeme} {op : Operator} {left : Tree} (hlist : s.list? = none)
      (htoken : l.token = .operator op) (hroom : s.operators < maxOperators)
      (hleft : s.progress = .complete left) :
      Move s (.lexeme l)
        { s with progress := .awaiting op (some left) l.pos, operators := s.operators + 1 }
  /-- An operator has nothing to take. -/
  | prefixOperator {s : State} {l : Lexeme} {op : Operator} (hlist : s.list? = none)
      (htoken : l.token = .operator op) (hroom : s.operators < maxOperators)
      (hempty : s.progress = .empty) :
      Move s (.lexeme l)
        { s with progress := .awaiting op none l.pos, operators := s.operators + 1 }
  | opening {s : State} {l : Lexeme} (hlist : s.list? = none) (htoken : l.token = .leftParen)
      (hroom : s.groups.length < maxDepth) :
      Move s (.lexeme l)
        { s with groups := ⟨l, s.progress⟩ :: s.groups, progress := .empty }
  /-- A group that holds nothing is closed. -/
  | closingEmpty {s : State} {l : Lexeme} {group : Group} {groups : List Group}
      (hlist : s.list? = none) (htoken : l.token = .rightParen)
      (hgroups : s.groups = group :: groups) (hempty : s.progress = .empty) :
      Move s (.lexeme l) { s with groups := groups, progress := group.outer }
  /-- The tree of a group is placed around it. -/
  | closingTree {s : State} {l : Lexeme} {group : Group} {groups : List Group} {t : Tree}
      (hlist : s.list? = none) (htoken : l.token = .rightParen)
      (hgroups : s.groups = group :: groups) (htree : s.progress = .complete t)
      (hadmits : Part.operand.Admits group.outer) :
      Move s (.lexeme l) { s with groups := groups, progress := group.outer.filled t }
  | openingList {s : State} {l : Lexeme} {op : Operator} {left? : Option Tree} {pos : Nat}
      (hlist : s.list? = none) (htoken : l.token = .leftBracket)
      (hprogress : s.progress = .awaiting op left? pos) :
      Move s (.lexeme l) { s with list? := some [] }
  | comma {s : State} {l : Lexeme} {ts : List Tree} (hlist : s.list? = some ts)
      (htoken : l.token = .comma) : Move s (.lexeme l) s
  /-- A literal joins the list. -/
  | listed {s : State} {l : Lexeme} {ts : List Tree} {t : Tree} (hlist : s.list? = some ts)
      (htoken : l.token.isLiteral = true) (ht : l.literal? = some t) :
      Move s (.lexeme l) { s with list? := some (ts ++ [t]) }
  /-- The list is placed. -/
  | closingList {s : State} {l : Lexeme} {ts : List Tree} (hlist : s.list? = some ts)
      (htoken : l.token = .rightBracket) (hadmits : Part.operand.Admits s.progress) :
      Move s (.lexeme l)
        { s with list? := none, progress := s.progress.filled (.sequence ts) }

theorem Progress.place_eq_ok {p p' : Progress} {operand : Tree} {first : Lexeme}
    (h : p.place operand first = .ok p') :
    Part.operand.Admits p ∧ p' = p.filled operand := by
  cases p with
  | empty => exact ⟨.inl rfl, (Except.ok.inj h).symm⟩
  | complete tree => simp [place] at h
  | awaiting op left? pos =>
      cases left? with
      | none => simp [place] at h
      | some left => exact ⟨.inr ⟨op, left, pos, rfl⟩, (Except.ok.inj h).symm⟩

theorem State.place_eq_ok {s s' : State} {operand : Tree} {first : Lexeme}
    (h : s.place operand first = .ok s') :
    Part.operand.Admits s.progress ∧ s' = { s with progress := s.progress.filled operand } := by
  unfold State.place at h
  split at h
  · rename_i p' hp'
    obtain ⟨hadmits, rfl⟩ := Progress.place_eq_ok hp'
    exact ⟨hadmits, (Except.ok.inj h).symm⟩
  · simp at h

theorem move_of_stepOperator {s s' : State} {l : Lexeme} {op : Operator}
    (hlist : s.list? = none) (htoken : l.token = .operator op)
    (h : s.stepOperator op l.pos = .ok s') : Move s (.lexeme l) s' := by
  unfold State.stepOperator at h
  split at h
  · simp at h
  · rename_i hroom
    split at h
    · rename_i hempty
      obtain rfl := Except.ok.inj h
      exact .prefixOperator hlist htoken (Nat.not_le.mp hroom) hempty
    · rename_i left hleft
      obtain rfl := Except.ok.inj h
      exact .operator hlist htoken (Nat.not_le.mp hroom) hleft
    · simp at h

theorem move_of_openGroup {s s' : State} {l : Lexeme} (hlist : s.list? = none)
    (htoken : l.token = .leftParen) (h : s.openGroup l = .ok s') : Move s (.lexeme l) s' := by
  unfold State.openGroup at h
  split at h
  · simp at h
  · rename_i hroom
    obtain rfl := Except.ok.inj h
    exact .opening hlist htoken (Nat.not_le.mp hroom)

theorem move_of_closeGroup {s s' : State} {l : Lexeme} (hlist : s.list? = none)
    (htoken : l.token = .rightParen) (h : s.closeGroup l = .ok s') : Move s (.lexeme l) s' := by
  unfold State.closeGroup at h
  split at h
  · simp at h
  · rename_i group groups hgroups
    cases hprogress : s.progress with
    | empty =>
        simp only [hprogress, Progress.result] at h
        obtain rfl := Except.ok.inj h
        exact .closingEmpty hlist htoken hgroups hprogress
    | complete tree =>
        simp only [hprogress, Progress.result] at h
        obtain ⟨hadmits, rfl⟩ := State.place_eq_ok h
        exact .closingTree hlist htoken hgroups hprogress hadmits
    | awaiting op left? pos => simp [hprogress, Progress.result] at h

theorem move_of_openList {s s' : State} {l : Lexeme} (hlist : s.list? = none)
    (htoken : l.token = .leftBracket) (h : s.openList l = .ok s') : Move s (.lexeme l) s' := by
  unfold State.openList at h
  split at h
  · rename_i op left? pos hprogress
    obtain rfl := Except.ok.inj h
    exact .openingList hlist htoken hprogress
  · simp at h

theorem move_of_stepLiteral {s s' : State} {l : Lexeme} (hlist : s.list? = none)
    (htoken : l.token.isLiteral = true) (h : s.stepLiteral l = .ok s') :
    Move s (.lexeme l) s' := by
  unfold State.stepLiteral at h
  split at h
  · rename_i t ht
    obtain ⟨hadmits, rfl⟩ := State.place_eq_ok h
    exact .literal hlist htoken ht hadmits
  · simp at h

theorem move_of_stepLexeme {s s' : State} {l : Lexeme} (hlist : s.list? = none)
    (h : s.stepLexeme l = .ok s') : Move s (.lexeme l) s' := by
  unfold State.stepLexeme at h
  split at h
  · rename_i op htoken
    exact move_of_stepOperator hlist htoken h
  · rename_i htoken
    exact move_of_openGroup hlist htoken h
  · rename_i htoken
    exact move_of_closeGroup hlist htoken h
  · rename_i htoken
    exact move_of_openList hlist htoken h
  case h_5 htoken | h_6 htoken | h_7 htoken | h_8 htoken =>
    exact move_of_stepLiteral hlist (by simp [htoken, Token.isLiteral]) h
  · simp at h

theorem move_of_stepList {s s' : State} {ts : List Tree} {l : Lexeme} (hlist : s.list? = some ts)
    (h : s.stepList ts l = .ok s') : Move s (.lexeme l) s' := by
  unfold State.stepList at h
  split at h
  · rename_i htoken
    obtain rfl := Except.ok.inj h
    exact .comma hlist htoken
  · rename_i htoken
    obtain ⟨hadmits, rfl⟩ := State.place_eq_ok h
    exact .closingList hlist htoken hadmits
  case h_3 htoken | h_4 htoken | h_5 htoken | h_6 htoken =>
    split at h
    · rename_i t ht
      obtain rfl := Except.ok.inj h
      exact .listed hlist (by simp [htoken, Token.isLiteral]) ht
    · simp at h
  · simp at h

/-- Every step that succeeds is one of the moves. -/
theorem move_of_step {s s' : State} {p : Phrase} (h : s.step p = .ok s') : Move s p s' := by
  unfold State.step at h
  split at h
  · rename_i first more hlist
    obtain ⟨hadmits, rfl⟩ := State.place_eq_ok h
    exact .path hlist hadmits
  · rename_i l hlist
    exact move_of_stepLexeme hlist h
  · simp at h
  · simp at h
  · rename_i ts l hlist
    exact move_of_stepList hlist h
  · simp at h

end Condition

end FieldQuery

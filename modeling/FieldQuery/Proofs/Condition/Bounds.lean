/-
How large a query can be.

Every binary node of a condition is made by one operator behind `where`, so counting
operators counts binary nodes.  An operator puts one level on top of what it joins, and
below the lowest operator there is at most a list with its literals: the height of a
tree is bounded by its binary nodes.  The stack of open groups is bounded by itself, in
every state that a reading passes through.

So two of the three bounds are about the tree and follow from its derivation, and the
third is about the reader and is an invariant of its steps.  Parentheses leave no node
behind, which is why the depth of groups bounds nothing about the tree; the limit on
operators does.
-/
import FieldQuery.Proofs.Condition.Parsed
import Mathlib

namespace FieldQuery

namespace Tree

/-! ### The size of a tree

Two measures, each by recursion over the tree and its lists.  A literal is one node and
adds no binary one, so a list of literals has two levels and no binary node.
-/

mutual

/-- How many binary nodes there are in the tree. -/
def binaries : Tree → Nat
  | .sequence items => binariesAll items
  | .filter condition => binaries condition
  | .binary _ left right => binaries left + binaries right + 1
  | _ => 0

/-- How many binary nodes there are in a list of trees. -/
def binariesAll : List Tree → Nat
  | [] => 0
  | t :: rest => binaries t + binariesAll rest

end

mutual

/-- How many nodes stand above one another at most. -/
def height : Tree → Nat
  | .sequence items => heightAll items + 1
  | .filter condition => height condition + 1
  | .binary _ left right => max (height left) (height right) + 1
  | _ => 1

/-- The greatest height in a list of trees. -/
def heightAll : List Tree → Nat
  | [] => 0
  | t :: rest => max (height t) (heightAll rest)

end

theorem binariesAll_append (ts more : List Tree) :
    binariesAll (ts ++ more) = binariesAll ts + binariesAll more := by
  induction ts with
  | nil => exact (Nat.zero_add _).symm
  | cons t rest ih => rw [List.cons_append, binariesAll, ih, binariesAll, Nat.add_assoc]

theorem heightAll_append (ts more : List Tree) :
    heightAll (ts ++ more) = max (heightAll ts) (heightAll more) := by
  induction ts with
  | nil => exact (Nat.zero_max _).symm
  | cons t rest ih => rw [List.cons_append, heightAll, ih, heightAll, Nat.max_assoc]

/-- A tree that is one node. -/
def Single (t : Tree) : Prop := t.binaries = 0 ∧ t.height = 1

/-- Single nodes side by side. -/
theorem size_of_single {ts : List Tree} (h : ∀ t ∈ ts, Single t) :
    binariesAll ts = 0 ∧ heightAll ts ≤ 1 := by
  induction ts with
  | nil => exact ⟨rfl, Nat.zero_le 1⟩
  | cons t rest ih =>
      obtain ⟨⟨hbinaries, hheight⟩, hrest⟩ := List.forall_mem_cons.mp h
      obtain ⟨hbinariesRest, hheightRest⟩ := ih hrest
      rw [binariesAll, heightAll]
      omega

theorem IsLiteral.single {t : Tree} (h : t.IsLiteral) : Single t := by
  cases t with
  | bool _ | quoted _ | integer _ | float _ => exact ⟨rfl, rfl⟩
  | sequence _ | path _ | filter _ | binary _ _ _ => exact absurd h id

end Tree

/-! ### Conditions

The count is exact and the height is bounded; both go through every production at once.
-/

namespace Condition

theorem Derives.size {part : Part} {ls : List Lexeme} {t : Tree} (h : Derives part ls t) :
    t.binaries = operatorCount ls ∧ t.height ≤ t.binaries + 2 := by
  induction h with
  | path hfields =>
      rw [(counts_eq_zero fun l hl => plain_of_field (hfields l hl)).1]
      exact ⟨rfl, Nat.le_succ 1⟩
  | @literal l t htoken ht =>
      obtain ⟨hbinaries, hheight⟩ := (Tree.isLiteral_of_literal? ht).single
      have hcount : operatorCount [l] = 0 := by
        simp [operatorCount_cons, (plain_of_isLiteral htoken).1]
      omega
  | @group opening closing inner t hopening _ hclosing ih =>
      have hcount : operatorCount (opening :: (inner ++ [closing])) = operatorCount inner := by
        simp [operatorCount_cons, isOperator, hopening, hclosing]
      rwa [hcount]
  | ofOperand _ ih => exact ih
  | @list opening closing inner ts hopening hinner hclosing =>
      obtain ⟨hbinaries, hheight⟩ :=
        Tree.size_of_single fun t ht => (hinner.isLiteral t ht).single
      have hplain := counts_eq_zero fun l hl => (hinner.plain l hl).1
      have hcount : operatorCount (opening :: (inner ++ [closing])) = 0 := by
        simp [operatorCount_cons, isOperator, hopening, hclosing, hplain.1]
      rw [hcount, Tree.binaries, Tree.height]
      omega
  | @first before operand after t hbefore _ hafter ih =>
      have hcount : operatorCount (before ++ (operand ++ after)) = operatorCount operand := by
        simp [hbefore.counts, hafter.counts]
      rwa [hcount]
  | @binary front gap side after l op left right _ htoken hgap _ hafter ihLeft ihRight =>
      have hcount : operatorCount (front ++ l :: (gap ++ (side ++ after))) =
          operatorCount front + operatorCount side + 1 := by
        simp [operatorCount_cons, isOperator, htoken, hgap.counts, hafter.counts]
        omega
      rw [hcount, Tree.binaries, Tree.height]
      omega

/-! ### Open groups

Only an opening parenthesis makes the stack longer, and it is refused where the limit is
reached.
-/

/-- No step opens a group where the limit has been reached. -/
theorem Move.depth {s s' : State} {p : Phrase} (h : Move s p s')
    (hdepth : s.groups.length ≤ maxDepth) : s'.groups.length ≤ maxDepth := by
  cases h with
  | opening _ _ hroom => exact hroom
  | closingEmpty _ _ hgroups _ | closingTree _ _ hgroups _ _ =>
      rw [hgroups, List.length_cons] at hdepth
      exact Nat.le_of_succ_le hdepth
  | path | literal | operator | prefixOperator | openingList | comma | listed | closingList =>
      exact hdepth

theorem State.depth_of_steps {s s' : State} {phrases : List Phrase}
    (h : s.steps phrases = some s') (hdepth : s.groups.length ≤ maxDepth) :
    s'.groups.length ≤ maxDepth := by
  induction phrases generalizing s with
  | nil =>
      obtain rfl := Option.some.inj h
      exact hdepth
  | cons p rest ih =>
      unfold steps at h
      split at h
      · rename_i next hnext
        exact ih h ((move_of_step hnext).depth hdepth)
      · simp at h

end Condition

/-! ### Whole queries

Operators in front of the first `where` are passed over and do not count.
-/

/-- The lexemes behind the first `where`. -/
def Lexeme.behindWhere (items : List (Except ScanError Lexeme)) : List Lexeme :=
  ((items.filterMap Except.toOption).dropWhile fun l => l.token != .whereKeyword).tail

namespace Query

open Condition

/-- While the text is read, the reader of its condition comes into this state: some of the
phrases behind the first `where` have been read. -/
def Reaches (text : String) (s : State) : Prop :=
  ∃ (before : List Phrase) (w : Lexeme) (front back : List Phrase),
    Phrase.ofText text = before ++ .lexeme w :: (front ++ back) ∧ w.token = .whereKeyword ∧
      (∀ l, .lexeme l ∈ before → l.token ≠ .whereKeyword) ∧ (State.start 0).steps front = some s

/-- Where a text is cut without error its lexemes are the items. -/
theorem filterMap_toOption (ls : List Lexeme) :
    (ls.map (Except.ok (ε := ScanError))).filterMap Except.toOption = ls := by
  induction ls with
  | nil => rfl
  | cons l rest ih => exact congrArg (l :: ·) ih

/-- What stands behind the first `where` of a text that is cut there. -/
theorem CutAtWhere.behindWhere_eq {text : String} {before ls : List Lexeme} {w : Lexeme}
    (h : CutAtWhere text before w ls) :
    operatorCount (Lexeme.behindWhere (Lexeme.scan text)) = operatorCount ls := by
  obtain ⟨last, hscan⟩ := h.scan
  have heof : last.token = .eof := by rw [(Lexeme.ends_of_scan hscan).2]
  have hbefore : ∀ l ∈ before, (l.token != .whereKeyword) = true :=
    fun l hl => bne_iff_ne.mpr (h.free l hl).1
  have hitems : Lexeme.scan text = (before ++ w :: (ls ++ [last])).map .ok := by
    rw [hscan]
    simp
  rw [Lexeme.behindWhere, hitems, filterMap_toOption, List.dropWhile_append_of_pos hbefore,
    List.dropWhile_cons_of_neg (by simp [h.keyword]), List.tail_cons, operatorCount_append,
    operatorCount_cons]
  simp [isOperator, heof]

/-- Nothing stands behind the `where` of a text that has none. -/
theorem CutFree.behindWhere_eq {text : String} {ls : List Lexeme} (h : CutFree text ls) :
    Lexeme.behindWhere (Lexeme.scan text) = [] := by
  obtain ⟨last, hscan⟩ := h.scan
  have heof : last.token = .eof := by rw [(Lexeme.ends_of_scan hscan).2]
  have hall : ∀ l ∈ ls ++ [last], (l.token != .whereKeyword) = true := by
    intro l hl
    rcases List.mem_append.mp hl with hl | hl
    · exact bne_iff_ne.mpr (h.free l hl).1
    · obtain rfl := List.mem_singleton.mp hl
      simp [heof]
  have hitems : Lexeme.scan text = (ls ++ [last]).map .ok := by
    rw [hscan]
    simp
  rw [Lexeme.behindWhere, hitems, filterMap_toOption, List.dropWhile_eq_nil_iff.mpr hall,
    List.tail_nil]

/-- The tree of a query has the binary nodes of its condition, and stands on it with two nodes
more. -/
theorem size_toTree (selectors : List String) (condition? : Option Tree) :
    (toTree ⟨selectors, condition?⟩).binaries = Tree.binariesAll condition?.toList ∧
      (toTree ⟨selectors, condition?⟩).height ≤ Tree.heightAll condition?.toList + 2 := by
  have hpaths : ∀ t ∈ selectors.map Tree.path, t.Single := by
    intro t ht
    obtain ⟨text, -, rfl⟩ := List.mem_map.mp ht
    exact ⟨rfl, rfl⟩
  obtain ⟨hbinaries, hheight⟩ := Tree.size_of_single hpaths
  rw [toTree, Tree.binaries, Tree.height, Tree.binariesAll_append, Tree.heightAll_append]
  cases condition? with
  | none =>
      simp only [Option.toList_none, List.map_nil, Tree.binariesAll, Tree.heightAll]
      omega
  | some c =>
      simp only [Option.toList_some, List.map_cons, List.map_nil, Tree.binariesAll, Tree.heightAll,
        Tree.binaries, Tree.height]
      omega

/-- The binary nodes of a query are its operators, and its height is bounded by them. -/
theorem size_of_parse {text : String} {q : Query} (h : parse text = .ok q) :
    q.toTree.binaries = operatorCount (Lexeme.behindWhere (Lexeme.scan text)) ∧
      q.toTree.binaries ≤ maxOperators ∧ q.toTree.height ≤ q.toTree.binaries + 4 := by
  rcases exists_cut_of_parse h with ⟨ls, hls⟩ | ⟨before, w, ls, hcut⟩
  · obtain rfl := Except.ok.inj ((parse_of_cutFree hls).symm.trans h)
    obtain ⟨hbinaries, hheight⟩ := size_toTree ((Phrase.group ls).filterMap Reading.path?) none
    rw [hls.behindWhere_eq, hbinaries]
    exact ⟨rfl, Nat.zero_le _, Nat.le_trans hheight (by decide)⟩
  · obtain ⟨c, ⟨hderives, -, -, hfew⟩, rfl⟩ := (parse_eq_ok_iff hcut q).mp h
    obtain ⟨hbinaries, hheight⟩ :=
      size_toTree ((Phrase.group before).filterMap Reading.path?) (some c)
    obtain ⟨hcount, hderived⟩ := hderives.size
    rw [hcut.behindWhere_eq]
    simp only [Option.toList_some, Tree.binariesAll, Tree.heightAll, Nat.max_zero,
      Nat.add_zero] at hbinaries hheight
    omega

/--
**The limits bound every query.**  The tree of a query has one binary node for each operator
behind its first `where`, at most 512 of them, and at most 516 levels; while any text is read
no more than 64 groups are open; and a text with more than 512 operators behind its first
`where` is no query.
-/
theorem parse_bounded (text : String) :
    (∀ q, parse text = .ok q →
      q.toTree.binaries = operatorCount (Lexeme.behindWhere (Lexeme.scan text)) ∧
        q.toTree.binaries ≤ 512 ∧ q.toTree.height ≤ 516) ∧
    (∀ s, Reaches text s → s.groups.length ≤ 64) ∧
    (512 < operatorCount (Lexeme.behindWhere (Lexeme.scan text)) →
      ∃ e, parse text = .error e) := by
  refine ⟨?_, ?_, ?_⟩
  · intro q hq
    obtain ⟨hcount, hfew, hheight⟩ := size_of_parse hq
    have hlimit : q.toTree.binaries ≤ 512 := hfew
    exact ⟨hcount, hlimit, by omega⟩
  · rintro s ⟨-, -, front, -, -, -, -, hsteps⟩
    exact State.depth_of_steps hsteps (Nat.zero_le 64)
  · intro hmany
    cases hparse : parse text with
    | error e => exact ⟨e, rfl⟩
    | ok q =>
        obtain ⟨hcount, hfew, -⟩ := size_of_parse hparse
        have hlimit : q.toTree.binaries ≤ 512 := hfew
        omega

/-- A list below the lowest operator gives the tree the most levels that its operators allow, and
one operator more than the limit allows is too many. -/
theorem parse_bounded_limits :
    (∃ q, parse ".a where .b in [1] or .c" = .ok q ∧ q.toTree.height = q.toTree.binaries + 4 ∧
      q.toTree.binaries ≤ 512 ∧ q.toTree.height ≤ 516) ∧
    ∃ e, parse (chained 513) = .error e := by
  constructor
  · have hparse : parse ".a where .b in [1] or .c" = .ok ⟨[".a"], some (.binary .or
        (.binary .isIn (.path ".b") (.sequence [.integer 1])) (.path ".c"))⟩ := by
      cbv
    obtain ⟨-, hfew, hheight⟩ := (parse_bounded ".a where .b in [1] or .c").1 _ hparse
    exact ⟨_, hparse, rfl, hfew, hheight⟩
  · obtain ⟨before, w, ls, hcut, -, hcount, -⟩ := cut_chained 513
    refine (parse_bounded (chained 513)).2.2 ?_
    rw [hcut.behindWhere_eq, hcount]
    decide

end Query

end FieldQuery

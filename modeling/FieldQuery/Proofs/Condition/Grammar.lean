/-
The grammar of conditions.

`Derives` reads lexemes as trees without saying how they are found.  It has three parts:
an operand, what can stand to the right of an operator, and a whole condition.  A
condition is its first operand with operators and right sides added one by one, so its
tree leans to the left and no operator binds tighter than another.  `Empties` are the
parentheses that contribute nothing, and they can stand wherever a condition has a seam.

Two limits are kept apart from the grammar: `Within` bounds how many parentheses are
open at a time, and `operatorCount` counts operators.  A derivation is balanced, so a
limit on a part is a limit on whatever the part stands in.

Empty groups between two seams can be given to either, so a derivation is not unique.  Its tree
is, because the reader has one answer.
-/
import FieldQuery.Query.Condition

namespace FieldQuery

theorem Token.isLiteral_iff {t : Token} :
    t.isLiteral = true ↔ t = .bool ∨ t = .char ∨ t = .string ∨ t = .number := by
  cases t <;> simp [isLiteral]

namespace Tree

/-- The tree is a literal. -/
def IsLiteral : Tree → Prop
  | .bool _ | .quoted _ | .integer _ | .float _ => True
  | _ => False

theorem isLiteral_of_number? {cs : List Char} {t : Tree} (h : number? cs = some t) :
    t.IsLiteral := by
  unfold number? at h
  dsimp only at h
  split at h
  · unfold integer? at h
    split at h
    · simp at h
    · obtain ⟨n, -, rfl⟩ := Option.map_eq_some_iff.mp h
      trivial
  · unfold float? at h
    dsimp only at h
    split at h
    · simp at h
    · obtain rfl := Option.some.inj h
      trivial

/-- What a literal lexeme stands for is a literal. -/
theorem isLiteral_of_literal? {l : Lexeme} {t : Tree} (h : l.literal? = some t) :
    t.IsLiteral := by
  unfold Lexeme.literal? at h
  split at h
  · obtain rfl := Option.some.inj h
    trivial
  · obtain rfl := Option.some.inj h
    trivial
  · obtain rfl := Option.some.inj h
    trivial
  · exact isLiteral_of_number? h

end Tree

namespace Condition

/-! ### The lexemes that the grammar tells apart -/

/-- Whether the lexeme joins two operands. -/
def isOperator (l : Lexeme) : Bool :=
  match l.token with
  | .operator _ => true
  | _ => false

/-- How many operators there are. -/
def operatorCount (ls : List Lexeme) : Nat := ls.countP isOperator

/-- How many opening parentheses there are. -/
def opens (ls : List Lexeme) : Nat := ls.countP fun l => l.token == .leftParen

/-- How many closing parentheses there are. -/
def closes (ls : List Lexeme) : Nat := ls.countP fun l => l.token == .rightParen

/-- With `depth` parentheses open before the lexemes, at most `maxDepth` are open after any
number of them. -/
def Within (depth : Nat) (ls : List Lexeme) : Prop :=
  ∀ front, front <+: ls → depth + opens front ≤ closes front + maxDepth

/-! ### Derivations

A run of fields is one operand, because fields that stand side by side are one path.
Nothing else that stands side by side is an operand.
-/

/-- Pairs of parentheses that hold nothing but such pairs. -/
inductive Empties : List Lexeme → Prop
  | nil : Empties []
  | pair {opening closing : Lexeme} {inner rest : List Lexeme}
      (hopening : opening.token = .leftParen) (hinner : Empties inner)
      (hclosing : closing.token = .rightParen) (hrest : Empties rest) :
      Empties (opening :: (inner ++ closing :: rest))

/-- Literals and commas in any mix, and the trees of the literals in their order. -/
inductive Listed : List Lexeme → List Tree → Prop
  | nil : Listed [] []
  | comma {l : Lexeme} {ls : List Lexeme} {ts : List Tree} (htoken : l.token = .comma)
      (hrest : Listed ls ts) : Listed (l :: ls) ts
  | literal {l : Lexeme} {ls : List Lexeme} {t : Tree} {ts : List Tree}
      (htoken : l.token.isLiteral = true) (ht : l.literal? = some t) (hrest : Listed ls ts) :
      Listed (l :: ls) (t :: ts)

/-- What a stretch of lexemes is read as. -/
inductive Part where
  | operand
  /-- What completes an operator. -/
  | right
  | condition
  deriving DecidableEq, Repr

/-- The lexemes can be read as this tree. -/
inductive Derives : Part → List Lexeme → Tree → Prop
  /-- A run of fields is one path.  No other operand can stand next to it, so the run is all
  of the fields there. -/
  | path {first : Lexeme} {more : List Lexeme} (hfields : ∀ l ∈ first :: more, l.token = .field) :
      Derives .operand (first :: more) (.path (Phrase.pathText first more))
  | literal {l : Lexeme} {t : Tree} (htoken : l.token.isLiteral = true)
      (ht : l.literal? = some t) : Derives .operand [l] t
  /-- Parentheses leave the tree as it is. -/
  | group {opening closing : Lexeme} {inner : List Lexeme} {t : Tree}
      (hopening : opening.token = .leftParen) (hinner : Derives .condition inner t)
      (hclosing : closing.token = .rightParen) :
      Derives .operand (opening :: (inner ++ [closing])) t
  | ofOperand {ls : List Lexeme} {t : Tree} (h : Derives .operand ls t) : Derives .right ls t
  /-- A list can stand to the right of an operator only. -/
  | list {opening closing : Lexeme} {inner : List Lexeme} {ts : List Tree}
      (hopening : opening.token = .leftBracket) (hinner : Listed inner ts)
      (hclosing : closing.token = .rightBracket) :
      Derives .right (opening :: (inner ++ [closing])) (.sequence ts)
  | first {before operand after : List Lexeme} {t : Tree} (hbefore : Empties before)
      (h : Derives .operand operand t) (hafter : Empties after) :
      Derives .condition (before ++ (operand ++ after)) t
  /-- All that has been read is the left side of the next operator. -/
  | binary {front gap side after : List Lexeme} {l : Lexeme} {op : Operator} {left right : Tree}
      (hleft : Derives .condition front left) (htoken : l.token = .operator op)
      (hgap : Empties gap) (hright : Derives .right side right) (hafter : Empties after) :
      Derives .condition (front ++ l :: (gap ++ (side ++ after))) (.binary op left right)

/-! ### Counting

What is counted is additive over appending, so that a count can be split where a part
is.
-/

@[simp] theorem operatorCount_nil : operatorCount [] = 0 := rfl

@[simp] theorem opens_nil : opens [] = 0 := rfl

@[simp] theorem closes_nil : closes [] = 0 := rfl

@[simp] theorem operatorCount_append (ls more : List Lexeme) :
    operatorCount (ls ++ more) = operatorCount ls + operatorCount more :=
  List.countP_append

@[simp] theorem opens_append (ls more : List Lexeme) :
    opens (ls ++ more) = opens ls + opens more :=
  List.countP_append

@[simp] theorem closes_append (ls more : List Lexeme) :
    closes (ls ++ more) = closes ls + closes more :=
  List.countP_append

theorem operatorCount_cons (l : Lexeme) (ls : List Lexeme) :
    operatorCount (l :: ls) = operatorCount ls + if isOperator l then 1 else 0 :=
  List.countP_cons

theorem opens_cons (l : Lexeme) (ls : List Lexeme) :
    opens (l :: ls) = opens ls + if l.token == .leftParen then 1 else 0 :=
  List.countP_cons

theorem closes_cons (l : Lexeme) (ls : List Lexeme) :
    closes (l :: ls) = closes ls + if l.token == .rightParen then 1 else 0 :=
  List.countP_cons

/-- The lexeme is neither an operator nor a parenthesis. -/
def Plain (l : Lexeme) : Prop :=
  isOperator l = false ∧ l.token ≠ .leftParen ∧ l.token ≠ .rightParen

theorem plain_of_field {l : Lexeme} (h : l.token = .field) : Plain l := by
  simp [Plain, isOperator, h]

theorem plain_of_comma {l : Lexeme} (h : l.token = .comma) : Plain l := by
  simp [Plain, isOperator, h]

theorem plain_of_isLiteral {l : Lexeme} (h : l.token.isLiteral = true) : Plain l := by
  rcases Token.isLiteral_iff.mp h with h | h | h | h <;> simp [Plain, isOperator, h]

/-- Plain lexemes count for nothing. -/
theorem counts_eq_zero {ls : List Lexeme} (h : ∀ l ∈ ls, Plain l) :
    operatorCount ls = 0 ∧ opens ls = 0 ∧ closes ls = 0 := by
  refine ⟨?_, ?_, ?_⟩
  · exact List.countP_eq_zero.mpr fun l hl => by simp [(h l hl).1]
  · exact List.countP_eq_zero.mpr fun l hl => by simp [(h l hl).2.1]
  · exact List.countP_eq_zero.mpr fun l hl => by simp [(h l hl).2.2]

/-! ### Staying within the limit

The limit is on every front of the lexemes, since a parenthesis that closes later does
not help.
-/

theorem Within.front {depth : Nat} {ls more : List Lexeme} (h : Within depth (ls ++ more)) :
    Within depth ls :=
  fun front hfront => h front (hfront.trans (List.prefix_append ls more))

/-- Behind lexemes that close what they open the depth is what it was. -/
theorem Within.back {depth : Nat} {ls more : List Lexeme} (h : Within depth (ls ++ more))
    (hbalanced : opens ls = closes ls) : Within depth more := by
  intro front hfront
  have := h (ls ++ front) ((List.prefix_append_right_inj ls).mpr hfront)
  rw [opens_append, closes_append] at this
  omega

/-- An opening parenthesis needs room and makes everything behind it one deeper. -/
theorem Within.opened {depth : Nat} {l : Lexeme} {ls : List Lexeme}
    (h : Within depth (l :: ls)) (htoken : l.token = .leftParen) :
    depth < maxDepth ∧ Within (depth + 1) ls := by
  have hcons : ∀ front, front <+: ls → depth + (opens front + 1) ≤ closes front + maxDepth := by
    intro front hfront
    have := h (l :: front) (by simpa using hfront)
    rw [opens_cons, closes_cons] at this
    simpa [htoken] using this
  refine ⟨?_, ?_⟩
  · have := hcons [] List.nil_prefix
    simp only [opens_nil, closes_nil] at this
    omega
  · intro front hfront
    have := hcons front hfront
    omega

/-- A closing parenthesis makes everything behind it one less deep. -/
theorem Within.closed {depth : Nat} {l : Lexeme} {ls : List Lexeme}
    (h : Within (depth + 1) (l :: ls)) (htoken : l.token = .rightParen) : Within depth ls := by
  intro front hfront
  have := h (l :: front) (by simpa using hfront)
  rw [opens_cons, closes_cons] at this
  simp only [htoken, beq_self_eq_true, if_true] at this
  simp only [show (Token.rightParen == Token.leftParen) = false from rfl] at this
  simp only [Bool.false_eq_true, if_false] at this
  omega

private theorem prefix_append_cases {α : Type} {front ls more : List α}
    (h : front <+: ls ++ more) : front <+: ls ∨ ∃ rest, front = ls ++ rest ∧ rest <+: more := by
  obtain ⟨tail, htail⟩ := h
  rcases List.append_eq_append_iff.mp htail with ⟨rest, hls, -⟩ | ⟨rest, hfront, hmore⟩
  · exact .inl ⟨rest, hls.symm⟩
  · exact .inr ⟨rest, hfront, tail, hmore.symm⟩

/-- More lexemes stay within the limit if none of them opens too much. -/
theorem Within.append {depth : Nat} {ls more : List Lexeme} (h : Within depth ls)
    (hmore : ∀ front, front <+: more →
      depth + opens (ls ++ front) ≤ closes (ls ++ front) + maxDepth) :
    Within depth (ls ++ more) := by
  intro front hfront
  rcases prefix_append_cases hfront with hls | ⟨rest, rfl, hrest⟩
  · exact h front hls
  · exact hmore rest hrest

/-- What stays within the limit can follow lexemes that close what they open. -/
theorem Within.join {depth : Nat} {ls more : List Lexeme} (h : Within depth ls)
    (hbalanced : opens ls = closes ls) (hmore : Within depth more) :
    Within depth (ls ++ more) := by
  refine h.append fun front hfront => ?_
  have := hmore front hfront
  rw [opens_append, closes_append]
  omega

/-- Lexemes that open nothing stay within the limit. -/
theorem within_of_opens_eq_zero {depth : Nat} {ls : List Lexeme} (hdepth : depth ≤ maxDepth)
    (h : opens ls = 0) : Within depth ls := by
  intro front hfront
  have hfrontOpens : opens front = 0 := by
    obtain ⟨back, rfl⟩ := hfront
    rw [opens_append] at h
    omega
  omega

/-- A pair of parentheses makes everything in it one deeper. -/
theorem Within.group {depth : Nat} {opening closing : Lexeme} {inner : List Lexeme}
    (hopening : opening.token = .leftParen) (hclosing : closing.token = .rightParen)
    (hbalanced : opens inner = closes inner) (h : Within (depth + 1) inner) :
    Within depth (opening :: (inner ++ [closing])) := by
  have hroom : depth + 1 ≤ maxDepth := by simpa using h [] List.nil_prefix
  have hinner : Within (depth + 1) (inner ++ [closing]) :=
    h.join hbalanced (within_of_opens_eq_zero hroom (by simp [opens_cons, hclosing]))
  intro front hfront
  cases front with
  | nil =>
      rw [opens_nil, closes_nil]
      omega
  | cons first rest =>
      obtain ⟨rfl, hrest⟩ := List.cons_prefix_cons.mp hfront
      have := hinner rest hrest
      rw [opens_cons, closes_cons]
      simp only [hopening, beq_self_eq_true, if_true]
      omega

/-! ### What derivations look like from outside

Where a part begins and ends decides whether its lexemes are grouped apart from what
stands around it.
-/

/-- Empty groups begin with an opening parenthesis. -/
theorem Empties.head_ne_field {ls : List Lexeme} (h : Empties ls) :
    ∀ l ∈ ls.head?, l.token ≠ .field := by
  cases h with
  | nil => simp
  | pair hopening _ _ _ =>
      intro l hl
      obtain rfl := Option.some.inj hl
      simp [hopening]

/-- Empty groups end with a closing parenthesis. -/
theorem Empties.last_ne_field {ls : List Lexeme} (h : Empties ls) :
    ∀ l ∈ ls.getLast?, l.token ≠ .field := by
  induction h with
  | nil => simp
  | @pair opening closing inner rest _ _ hclosing _ _ ih =>
      intro l hl
      rw [← List.cons_append, List.getLast?_append, List.getLast?_cons, Option.some_or] at hl
      obtain rfl := Option.some.inj hl
      cases hrest : rest.getLast? with
      | none => simp [hclosing]
      | some last => exact ih last hrest

theorem Empties.ne_eof {ls : List Lexeme} (h : Empties ls) : ∀ l ∈ ls, l.token ≠ .eof := by
  induction h with
  | nil => simp
  | pair hopening _ hclosing _ ihInner ihRest =>
      intro l hl
      simp only [List.mem_cons, List.mem_append] at hl
      rcases hl with rfl | hl | rfl | hl
      · simp [hopening]
      · exact ihInner l hl
      · simp [hclosing]
      · exact ihRest l hl

theorem Empties.counts {ls : List Lexeme} (h : Empties ls) :
    operatorCount ls = 0 ∧ opens ls = closes ls := by
  induction h with
  | nil => exact ⟨rfl, rfl⟩
  | pair hopening _ hclosing _ ihInner ihRest =>
      simp only [operatorCount_cons, opens_cons, closes_cons, operatorCount_append, opens_append,
        closes_append, isOperator, hopening, hclosing, ihInner, ihRest]
      simp
      omega

theorem Empties.append {ls more : List Lexeme} (h : Empties ls) (hmore : Empties more) :
    Empties (ls ++ more) := by
  induction h with
  | nil => exact hmore
  | pair hopening hinner hclosing _ _ ih =>
      rw [List.cons_append, List.append_assoc, List.cons_append]
      exact .pair hopening hinner hclosing ih

theorem Listed.plain {ls : List Lexeme} {ts : List Tree} (h : Listed ls ts) :
    ∀ l ∈ ls, Plain l ∧ l.token ≠ .field ∧ l.token ≠ .eof := by
  induction h with
  | nil => simp
  | comma htoken _ ih =>
      intro l hl
      rcases List.mem_cons.mp hl with rfl | hmem
      · exact ⟨plain_of_comma htoken, by simp [htoken], by simp [htoken]⟩
      · exact ih l hmem
  | literal htoken _ _ ih =>
      intro l hl
      rcases List.mem_cons.mp hl with rfl | hmem
      · refine ⟨plain_of_isLiteral htoken, ?_, ?_⟩ <;> intro hother <;>
          simp [hother, Token.isLiteral_iff] at htoken
      · exact ih l hmem

theorem Listed.isLiteral {ls : List Lexeme} {ts : List Tree} (h : Listed ls ts) :
    ∀ t ∈ ts, t.IsLiteral := by
  induction h with
  | nil => simp
  | comma _ _ ih => exact ih
  | literal _ ht _ ih => exact List.forall_mem_cons.mpr ⟨Tree.isLiteral_of_literal? ht, ih⟩

theorem Listed.append {ls more : List Lexeme} {ts us : List Tree} (h : Listed ls ts)
    (hmore : Listed more us) : Listed (ls ++ more) (ts ++ us) := by
  induction h with
  | nil => exact hmore
  | comma htoken _ ih => exact .comma htoken ih
  | literal htoken ht _ ih => exact .literal htoken ht ih

theorem Derives.ne_eof {part : Part} {ls : List Lexeme} {t : Tree} (h : Derives part ls t) :
    ∀ l ∈ ls, l.token ≠ .eof := by
  induction h with
  | path hfields =>
      intro l hl
      simp [hfields l hl]
  | literal htoken _ =>
      intro l hl heof
      obtain rfl := List.mem_singleton.mp hl
      simp [heof, Token.isLiteral_iff] at htoken
  | group hopening _ hclosing ih =>
      intro l hl
      simp only [List.mem_cons, List.mem_append, List.not_mem_nil, or_false] at hl
      rcases hl with rfl | hl | rfl
      · simp [hopening]
      · exact ih l hl
      · simp [hclosing]
  | ofOperand _ ih => exact ih
  | list hopening hinner hclosing =>
      intro l hl
      simp only [List.mem_cons, List.mem_append, List.not_mem_nil, or_false] at hl
      rcases hl with rfl | hl | rfl
      · simp [hopening]
      · exact (hinner.plain l hl).2.2
      · simp [hclosing]
  | first hbefore _ hafter ih =>
      intro l hl
      simp only [List.mem_append] at hl
      rcases hl with hl | hl | hl
      · exact hbefore.ne_eof l hl
      · exact ih l hl
      · exact hafter.ne_eof l hl
  | binary _ htoken hgap _ hafter ihLeft ihRight =>
      intro l hl
      simp only [List.mem_cons, List.mem_append] at hl
      rcases hl with hl | rfl | hl | hl | hl
      · exact ihLeft l hl
      · simp [htoken]
      · exact hgap.ne_eof l hl
      · exact ihRight l hl
      · exact hafter.ne_eof l hl

/-- A derivation closes the parentheses that it opens. -/
theorem Derives.balanced {part : Part} {ls : List Lexeme} {t : Tree} (h : Derives part ls t) :
    opens ls = closes ls := by
  induction h with
  | path hfields =>
      have hplain := counts_eq_zero fun l hl => plain_of_field (hfields l hl)
      rw [hplain.2.1, hplain.2.2]
  | @literal l t htoken _ =>
      have hplain : ∀ l' ∈ [l], Plain l' := by
        intro l' hl'
        obtain rfl := List.mem_singleton.mp hl'
        exact plain_of_isLiteral htoken
      rw [(counts_eq_zero hplain).2.1, (counts_eq_zero hplain).2.2]
  | group hopening _ hclosing ih =>
      simp [opens_cons, closes_cons, hopening, hclosing, ih]
  | ofOperand _ ih => exact ih
  | list hopening hinner hclosing =>
      have hplain := counts_eq_zero fun l hl => (hinner.plain l hl).1
      simp [opens_cons, closes_cons, hopening, hclosing, hplain]
  | first hbefore _ hafter ih =>
      simp [hbefore.counts, hafter.counts, ih]
  | binary _ htoken hgap _ hafter ihLeft ihRight =>
      simp [opens_cons, closes_cons, htoken, hgap.counts, hafter.counts, ihLeft, ihRight]

theorem Derives.condition {ls : List Lexeme} {t : Tree} (h : Derives .operand ls t) :
    Derives .condition ls t := by
  have hcondition := Derives.first .nil h .nil
  rwa [List.nil_append, List.append_nil] at hcondition

/-- A right side behind an operator makes a condition longer. -/
theorem Derives.operate {front side : List Lexeme} {l : Lexeme} {op : Operator}
    {left right : Tree} (hleft : Derives .condition front left) (htoken : l.token = .operator op)
    (hright : Derives .right side right) :
    Derives .condition (front ++ l :: side) (.binary op left right) := by
  have hbinary := Derives.binary hleft htoken .nil hright .nil
  rwa [List.nil_append, List.append_nil] at hbinary

theorem Derives.append_empties {ls more : List Lexeme} {t : Tree}
    (h : Derives .condition ls t) (hmore : Empties more) : Derives .condition (ls ++ more) t := by
  cases h with
  | first hbefore hoperand hafter =>
      rw [List.append_assoc, List.append_assoc]
      exact .first hbefore hoperand (hafter.append hmore)
  | binary hleft htoken hgap hright hafter =>
      rw [List.append_assoc, List.cons_append, List.append_assoc, List.append_assoc]
      exact .binary hleft htoken hgap hright (hafter.append hmore)

end Condition

end FieldQuery

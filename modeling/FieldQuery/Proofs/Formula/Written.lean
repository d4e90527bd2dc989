/-
Formulas and how they are written.

A formula is built with `and` and `or` from comparisons.  Every node is written with a
pair of parentheses of its own, so nothing is left to the order in which operators are
folded.  `Operand` says what words of this kind are read as, whatever their positions
are, with the room that they need: `operand_words` gives it for formulas of any size,
and the limits enter only at the end.

The induction is over the formula and has one step, two operands joined inside
parentheses.  Since a comparison is joined in the same way as `and` and `or` are, with a
path and a side for its operands, all three constructors are this step.
-/
import FieldQuery.Proofs.Formula.Side

namespace FieldQuery

namespace Condition

/-- The words are an operand with this tree and this many operators, and this many more
parentheses are open at a time than before them. -/
def Operand (words : List (Token × String)) (t : Tree) (operators depth : Nat) : Prop :=
  ∀ ls : List Lexeme, ls.map Lexeme.word = words →
    Derives .operand ls t ∧ operatorCount ls = operators ∧
      ∀ before, before + depth ≤ maxDepth → Within before ls

/-- The characters of two operands that are joined inside parentheses. -/
def joinedChars (op : Operator) (left right : List Char) : List Char :=
  ['('] ++ (left ++ [' '] ++ (op.symbol.toList ++ [' '] ++ (right ++ [')'])))

/-- The words of two operands that are joined inside parentheses. -/
def joinedWords (op : Operator) (left right : List (Token × String)) : List (Token × String) :=
  [(.leftParen, "(")] ++ (left ++ ([(.operator op, op.symbol)] ++ (right ++ [(.rightParen, ")")])))

/-- Joined operands are read one after the other. -/
theorem reads_joined (op : Operator) {left right : List Char}
    {leftWords rightWords : List (Token × String)}
    (hleft : ∀ rest, Text.Stops rest → Lexeme.Reads left rest leftWords)
    (hright : ∀ rest, Text.Stops rest → Lexeme.Reads right rest rightWords) (rest : List Char) :
    Lexeme.Reads (joinedChars op left right) rest (joinedWords op leftWords rightWords) := by
  have hclosing := (hright _ (Text.stops_rightParen rest)).append (Lexeme.reads_rightParen rest)
  have hoperator := (Lexeme.reads_operator op (Text.stops_space _)).spaced.append hclosing
  have hoperands := (hleft _ (Text.stops_space _)).spaced.append hoperator
  exact (Lexeme.reads_leftParen _).append hoperands

/-- Joined operands are an operand with one more operator and one more pair of parentheses. -/
theorem Operand.joined {leftWords rightWords : List (Token × String)} {left right : Tree}
    {m n depth : Nat} (hleft : Operand leftWords left m depth)
    (hright : Operand rightWords right n depth) (op : Operator) :
    Operand (joinedWords op leftWords rightWords) (.binary op left right) (m + n + 1)
      (depth + 1) := by
  intro ls h
  rw [joinedWords, List.singleton_append, List.singleton_append] at h
  -- cut the lexemes where the words were put together
  obtain ⟨opening, operands, rfl, hopening, hoperands⟩ := List.map_eq_cons_iff.mp h
  obtain ⟨first, operator, rfl, hfirst, hoperator⟩ := List.map_eq_append_iff.mp hoperands
  obtain ⟨l, operand, rfl, hl, hoperand⟩ := List.map_eq_cons_iff.mp hoperator
  obtain ⟨second, last, rfl, hsecond, hlast⟩ := List.map_eq_append_iff.mp hoperand
  obtain ⟨closing, nothing, rfl, hclosing, hnothing⟩ := List.map_eq_cons_iff.mp hlast
  obtain rfl := List.map_eq_nil_iff.mp hnothing
  have htoken := Lexeme.token_of_word hl
  have hopens := Lexeme.token_of_word hopening
  have hcloses := Lexeme.token_of_word hclosing
  obtain ⟨hderivesLeft, hcountLeft, hwithinLeft⟩ := hleft first hfirst
  obtain ⟨hderivesRight, hcountRight, hwithinRight⟩ := hright second hsecond
  have hinner : Derives .condition (first ++ l :: second) (.binary op left right) :=
    hderivesLeft.condition.operate htoken (.ofOperand hderivesRight)
  have hassoc : opening :: (first ++ l :: (second ++ [closing])) =
      opening :: ((first ++ l :: second) ++ [closing]) := by
    rw [List.append_assoc, List.cons_append]
  rw [hassoc]
  refine ⟨.group hopens hinner hcloses, ?_, fun before hbefore => ?_⟩
  · simp [operatorCount_cons, isOperator, hopens, hcloses, htoken, hcountLeft, hcountRight]
    omega
  · have hl : Within (before + 1) [l] :=
      within_of_opens_eq_zero (by omega) (by simp [opens_cons, htoken])
    have hbalanced : opens [l] = closes [l] := by simp [opens_cons, closes_cons, htoken]
    have hback : Within (before + 1) ([l] ++ second) :=
      hl.join hbalanced (hwithinRight (before + 1) (by omega))
    exact Within.group hopens hcloses hinner.balanced
      ((hwithinLeft (before + 1) (by omega)).join hderivesLeft.balanced hback)

/-- Room for more parentheses does no harm. -/
theorem Operand.mono {words : List (Token × String)} {t : Tree} {n depth more : Nat}
    (h : Operand words t n depth) (hle : depth ≤ more) : Operand words t n more := by
  intro ls hls
  obtain ⟨hderives, hcount, hwithin⟩ := h ls hls
  exact ⟨hderives, hcount, fun before hbefore => hwithin before (by omega)⟩

end Condition

theorem Side.operand_words (side : Side) : Condition.Operand side.words side.tree 0 0 := by
  intro ls h
  obtain ⟨hoperators, hopens, -⟩ := Condition.counts_eq_zero (side.plain_of_words h)
  exact ⟨side.derives h, hoperators, fun before hbefore =>
    Condition.within_of_opens_eq_zero hbefore hopens⟩

/-- A formula over the fields of a document. -/
inductive Formula where
  /-- A field stands in a relation to the other side. -/
  | atom (path : KeyPath) (relation : Relation) (side : Side)
  | and (left right : Formula)
  | or (left right : Formula)

namespace Formula

/-- The formula as it is written. -/
def chars : Formula → List Char
  | .atom path relation side =>
    Condition.joinedChars (.compare relation) path.text.toList side.chars
  | .and left right => Condition.joinedChars .and left.chars right.chars
  | .or left right => Condition.joinedChars .or left.chars right.chars

/-- The tokens and texts that it is read into. -/
def words : Formula → List (Token × String)
  | .atom path relation side =>
    Condition.joinedWords (.compare relation) (Side.path path).words side.words
  | .and left right => Condition.joinedWords .and left.words right.words
  | .or left right => Condition.joinedWords .or left.words right.words

/-- The tree that it is read as. -/
def tree : Formula → Tree
  | .atom path relation side => .binary (.compare relation) (.path path.text) side.tree
  | .and left right => .binary .and left.tree right.tree
  | .or left right => .binary .or left.tree right.tree

/-- The number of nodes. -/
def size : Formula → Nat
  | .atom .. => 1
  | .and left right => left.size + right.size + 1
  | .or left right => left.size + right.size + 1

/-- The number of nodes on the longest way down. -/
def height : Formula → Nat
  | .atom .. => 1
  | .and left right => max left.height right.height + 1
  | .or left right => max left.height right.height + 1

theorem reads_chars (f : Formula) (rest : List Char) : Lexeme.Reads f.chars rest f.words := by
  induction f generalizing rest with
  | atom path relation side =>
      exact Condition.reads_joined _ (fun _ => (Side.path path).reads_chars)
        (fun _ => side.reads_chars) rest
  | and left right ihLeft ihRight =>
      exact Condition.reads_joined _ (fun rest _ => ihLeft rest) (fun rest _ => ihRight rest) rest
  | or left right ihLeft ihRight =>
      exact Condition.reads_joined _ (fun rest _ => ihLeft rest) (fun rest _ => ihRight rest) rest

/-- A formula is read as its tree, with one operator and one pair of parentheses for each of its
nodes. -/
theorem operand_words (f : Formula) : Condition.Operand f.words f.tree f.size f.height := by
  induction f with
  | atom path relation side =>
      exact (Side.path path).operand_words.joined side.operand_words (.compare relation)
  | and left right ihLeft ihRight =>
      exact (ihLeft.mono (Nat.le_max_left _ _)).joined (ihRight.mono (Nat.le_max_right _ _)) .and
  | or left right ihLeft ihRight =>
      exact (ihLeft.mono (Nat.le_max_left _ _)).joined (ihRight.mono (Nat.le_max_right _ _)) .or

theorem isCondition_tree (f : Formula) : f.tree.isCondition = true := by
  cases f <;> rfl

end Formula

end FieldQuery

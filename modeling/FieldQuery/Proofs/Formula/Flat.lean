/-
Conditions without parentheses.

Operands and operators are written in turn, and every operator takes all that stands
before it as its left side.  So only the first operator has an operand there, and the
others have the tree that was built by then: a relation that comes later compares no
path and holds nowhere.  What a step adds is said twice, of the text in `ReadAs.step`
and of the meaning in `Step.means_iff`, and a condition of any length follows by
induction over its steps.

The induction adds steps at the end, since that is where the tree grows; a condition is
a fold over its steps from the left.  Therefore a later `and` undoes whatever held, for
its right side is an operand and no operand holds, and a later `or` adds nothing for the
same reason.  Only the first comparison counts, and only if nothing but `or` follows.
-/
import FieldQuery.Proofs.Condition.Words
import FieldQuery.Proofs.Scan.Continued
import FieldQuery.Proofs.Selection.Whole
import FieldQuery.Proofs.Tree.Meaning

namespace FieldQuery

namespace Condition

/-! ### Operands

An operand is given by its text and by what the text is read as.  Paths and literals may
have blanks around them, and lists may have blanks and commas inside.
-/

/-- The text is a path or a literal. -/
inductive Single (text : String) : Tree → Prop
  | path {first last : Lexeme} {more : List Lexeme}
      (hscan : Lexeme.scan text = (first :: more).map .ok ++ [.ok last])
      (hfields : ∀ l ∈ first :: more, l.token = .field) :
      Single text (.path (Phrase.pathText first more))
  | literal {l last : Lexeme} {t : Tree} (hscan : Lexeme.scan text = [l].map .ok ++ [.ok last])
      (htoken : l.token.isLiteral = true) (ht : l.literal? = some t) : Single text t

/-- The text is a path, a literal or a list of literals in brackets. -/
inductive RightSide (text : String) : Tree → Prop
  | single {t : Tree} (h : Single text t) : RightSide text t
  | list {opening closing last : Lexeme} {inner : List Lexeme} {ts : List Tree}
      (hscan : Lexeme.scan text = (opening :: (inner ++ [closing])).map .ok ++ [.ok last])
      (hopening : opening.token = .leftBracket) (hinner : Listed inner ts)
      (hclosing : closing.token = .rightBracket) : RightSide text (.sequence ts)

variable {text : String} {t : Tree}

theorem Single.exists_derives (h : Single text t) : ∃ (ls : List Lexeme) (last : Lexeme),
    Lexeme.scan text = ls.map .ok ++ [.ok last] ∧ Derives .operand ls t ∧
      ∀ l ∈ ls, Plain l := by
  cases h with
  | path hscan hfields =>
      exact ⟨_, _, hscan, .path hfields, fun l hl => plain_of_field (hfields l hl)⟩
  | literal hscan htoken ht =>
      exact ⟨_, _, hscan, .literal htoken ht,
        List.forall_mem_singleton.mpr (plain_of_isLiteral htoken)⟩

theorem RightSide.exists_derives (h : RightSide text t) :
    ∃ (ls : List Lexeme) (last : Lexeme), Lexeme.scan text = ls.map .ok ++ [.ok last] ∧
      Derives .right ls t ∧ ∀ l ∈ ls, Plain l := by
  cases h with
  | single h =>
      obtain ⟨ls, last, hscan, hderives, hplain⟩ := h.exists_derives
      exact ⟨ls, last, hscan, .ofOperand hderives, hplain⟩
  | @list opening closing last inner ts hscan hopening hinner hclosing =>
      refine ⟨_, _, hscan, .list hopening hinner hclosing, ?_⟩
      have hbrackets : Plain opening ∧ Plain closing := by
        simp [Plain, isOperator, hopening, hclosing]
      refine List.forall_mem_cons.mpr ⟨hbrackets.1, List.forall_mem_append.mpr
        ⟨fun l hl => (hinner.plain l hl).1, List.forall_mem_singleton.mpr hbrackets.2⟩⟩

theorem Single.isCondition_eq_false (h : Single text t) : t.isCondition = false := by
  cases h with
  | path _ _ => rfl
  | literal _ _ ht => exact (Tree.isLiteral_of_literal? ht).isCondition_eq_false

theorem RightSide.isCondition_eq_false (h : RightSide text t) : t.isCondition = false := by
  cases h with
  | single h => exact h.isCondition_eq_false
  | list _ _ _ _ => rfl

/-! ### Steps

A step is an operator and its right side.  Between two steps there is a space, and a
space stops every lexeme.
-/

/-- An operator and what is written behind it.  Spaces around the operand may be part of its
text. -/
structure Step where
  op : Operator
  text : String
  tree : Tree
  right : RightSide text tree

namespace Step

/-- The step as it is written. -/
def chars (step : Step) : List Char := ' ' :: (step.op.symbol.toList ++ ' ' :: step.text.toList)

/-- Everything read before the step is the left side of its operator. -/
def onto (t : Tree) (step : Step) : Tree := .binary step.op t step.tree

/-- Whether the operator of the step is a relation. -/
def isRelation (step : Step) : Bool :=
  match step.op with
  | .compare _ => true
  | _ => false

end Step

/-- In front of what cuts a lexeme off, the characters are read as this condition, with this many
operators and no parentheses. -/
def ReadAs (cs : List Char) (t : Tree) (operators : Nat) : Prop :=
  ∃ words, (∀ rest, Text.Stops rest → Lexeme.Reads cs rest words) ∧
    ∀ ls : List Lexeme, ls.map Lexeme.word = words →
      Derives .condition ls t ∧ opens ls = 0 ∧ operatorCount ls = operators

theorem Single.readAs (h : Single text t) : ReadAs text.toList t 0 := by
  obtain ⟨ls, last, hscan, hderives, hplain⟩ := h.exists_derives
  refine ⟨ls.map Lexeme.word, fun rest hrest => Lexeme.reads_of_scan hscan hrest, ?_⟩
  intro ls' hls'
  obtain ⟨hoperators, hopens, -⟩ := counts_eq_zero hplain
  exact ⟨hderives.condition.congr hls', (opens_congr hls').trans hopens,
    (operatorCount_congr hls').trans hoperators⟩

/-- A step makes a condition longer by one operator. -/
theorem ReadAs.step {cs : List Char} {n : Nat} (h : ReadAs cs t n) (step : Step) :
    ReadAs (cs ++ step.chars) (step.onto t) (n + 1) := by
  obtain ⟨words, hreads, hwords⟩ := h
  obtain ⟨side, last, hscan, hright, hplain⟩ := step.right.exists_derives
  obtain ⟨hnoOperators, hnoOpens, -⟩ := counts_eq_zero hplain
  refine ⟨words ++ ((.operator step.op, step.op.symbol) :: side.map Lexeme.word), ?_, ?_⟩
  · intro rest hrest
    have hoperator := Lexeme.reads_operator step.op (Text.stops_space (step.text.toList ++ rest))
    have hbehind := hoperator.spaced.append (Lexeme.reads_of_scan hscan hrest)
    have hall := (hreads _ (Text.stops_space _)).spaced.append hbehind
    simpa only [Step.chars, List.append_assoc, List.singleton_append] using hall
  · intro ls hls
    obtain ⟨front, behind, rfl, hfront, hbehind⟩ := List.map_eq_append_iff.mp hls
    obtain ⟨l, side', rfl, hl, hside⟩ := List.map_eq_cons_iff.mp hbehind
    have htoken := Lexeme.token_of_word hl
    obtain ⟨hleft, hopens, hcount⟩ := hwords front hfront
    refine ⟨hleft.operate htoken (hright.congr hside), ?_, ?_⟩
    · simp [opens_cons, htoken, hopens, opens_congr hside, hnoOpens]
    · simp [operatorCount_cons, isOperator, htoken, hcount, operatorCount_congr hside,
        hnoOperators]

theorem ReadAs.steps {cs : List Char} {n : Nat} (h : ReadAs cs t n) (steps : List Step) :
    ReadAs (cs ++ steps.flatMap Step.chars) (steps.foldl Step.onto t) (n + steps.length) := by
  induction steps generalizing cs t n with
  | nil => simpa using h
  | cons step rest ih =>
      have hrest := ih (h.step step)
      rw [List.append_assoc, Nat.add_assoc, Nat.add_comm 1] at hrest
      exact hrest

/-! ### What steps mean

The left side of every step but the first is a condition, and no right side is one.
-/

variable {d : Document}

/-- Behind a condition only `or` keeps what holds, and nothing adds to it. -/
theorem Step.means_iff (step : Step) (h : t.isCondition = true) :
    (step.onto t).Means d ↔ t.Means d ∧ step.op = .or := by
  obtain ⟨op, text, tree, hside⟩ := step
  have htree : ¬tree.Means d :=
    Tree.not_means_of_isCondition hside.isCondition_eq_false
  rw [onto]
  cases op with
  | and => simp [Tree.Means, htree]
  | or => simp [Tree.Means, htree]
  | isIn | contains => simp [Tree.Means]
  | compare relation =>
      cases t with
      | binary _ _ _ => simp [Tree.Means]
      | sequence _ | path _ | bool _ | quoted _ | integer _ | float _ | filter _ =>
          simp [Tree.isCondition] at h

theorem Step.isCondition_foldl (steps : List Step) (h : t.isCondition = true) :
    (steps.foldl onto t).isCondition = true := by
  induction steps generalizing t with
  | nil => exact h
  | cons step rest ih => exact @ih (step.onto t) rfl

theorem Step.means_foldl_iff (steps : List Step) (h : t.isCondition = true) :
    (steps.foldl onto t).Means d ↔ t.Means d ∧ ∀ step ∈ steps, step.op = .or := by
  induction steps generalizing t with
  | nil => simp
  | cons step rest ih =>
      have hrest := @ih (step.onto t) rfl
      rw [List.foldl_cons, hrest, step.means_iff h, List.forall_mem_cons, and_assoc]

/-- Only a relation behind a path makes the first step hold. -/
theorem Step.means_first_iff (step : Step) (h : t.isCondition = false) :
    (step.onto t).Means d ↔ ∃ path relation, t = .path path ∧ step.op = .compare relation ∧
      relation ≠ .not ∧ Tree.Compares d relation path step.tree := by
  have hleft : ¬t.Means d := Tree.not_means_of_isCondition h
  have hright : ¬step.tree.Means d :=
    Tree.not_means_of_isCondition step.right.isCondition_eq_false
  rw [onto]
  cases step.op with
  | and => simp [Tree.Means, hleft]
  | or => simp [Tree.Means, hleft, hright]
  | isIn | contains => simp [Tree.Means]
  | compare relation =>
      cases t with
      | path text => simp [Tree.Means]
      | sequence _ | bool _ | quoted _ | integer _ | float _ | filter _ | binary _ _ _ =>
          simp [Tree.Means]

/-! ### Whole conditions -/

/-- A condition without parentheses: an operand and one or more steps. -/
structure Flat where
  text : String
  tree : Tree
  single : Single text tree
  first : Step
  more : List Step

namespace Flat

/-- All steps. -/
def steps (f : Flat) : List Step := f.first :: f.more

/-- The condition as it is written. -/
def chars (f : Flat) : List Char := f.text.toList ++ f.steps.flatMap Step.chars

/-- The query that gives the document if the condition holds on it. -/
def query (f : Flat) : String := String.ofList (". where ".toList ++ f.chars)

/-- The condition as it is read: every operator takes in what stands before it. -/
def condition (f : Flat) : Tree := f.steps.foldl Step.onto f.tree

/-- A path stands in the relation of the first step to what follows it, and the other steps are
all joined by `or`. -/
def Selects (d : Document) (f : Flat) : Prop :=
  (∃ path relation, f.tree = .path path ∧ f.first.op = .compare relation ∧ relation ≠ .not ∧
    Tree.Compares d relation path f.first.tree) ∧ ∀ step ∈ f.more, step.op = .or

theorem isCondition_condition (f : Flat) : f.condition.isCondition = true :=
  @Step.isCondition_foldl (f.first.onto f.tree) f.more rfl

theorem means_iff (f : Flat) : f.condition.Means d ↔ f.Selects d := by
  have hmeans := @Step.means_foldl_iff (f.first.onto f.tree) d f.more rfl
  rw [f.first.means_first_iff f.single.isCondition_eq_false] at hmeans
  exact hmeans

theorem parse_query (f : Flat) (h : f.steps.length ≤ maxOperators) :
    Query.parse f.query = .ok ⟨[Path.root], some f.condition⟩ := by
  obtain ⟨words, hreads, hwords⟩ := f.single.readAs.steps f.steps
  refine Query.parse_whole (hreads [] Text.stops_nil) f.isCondition_condition fun ls hls => ?_
  obtain ⟨hderives, hopens, hcount⟩ := hwords ls hls
  exact ⟨hderives, within_of_opens_eq_zero (Nat.zero_le _) hopens, by omega⟩

/-- Besides the first relation there are only `or`s. -/
theorem Selects.relations_le {f : Flat} (h : f.Selects d) :
    f.steps.countP Step.isRelation ≤ 1 := by
  have hmore : f.more.countP Step.isRelation = 0 := by
    refine List.countP_eq_zero.mpr fun step hstep => ?_
    simp [Step.isRelation, h.2 step hstep]
  rw [steps, List.countP_cons, hmore]
  split <;> omega

/--
**Without parentheses only the first comparison counts.**  A condition of up to 512 operators is
read, and the document is given exactly if the condition begins with a path, the path stands in
the relation that follows it to what follows then, and all other operators are `or`.  With two
relations the document is never given.
-/
theorem run_flat (f : Flat) (h : f.steps.length ≤ 512) (entries : List (String × Value))
    (merge : Merge) :
    ∃ d, Document.ofValue? (.object entries) = some d ∧
      Query.parse f.query = .ok ⟨[Path.root], some f.condition⟩ ∧
      (f.Selects d → Query.run merge f.query (.object entries) =
        .ok (.selected (Value.object entries).canonical)) ∧
      (¬f.Selects d → Query.run merge f.query (.object entries) = .ok .filtered) ∧
      (2 ≤ f.steps.countP Step.isRelation →
        Query.run merge f.query (.object entries) = .ok .filtered) := by
  obtain ⟨d, hd⟩ : ∃ d, Document.ofValue? (.object entries) = some d := ⟨_, rfl⟩
  have hparse := f.parse_query h
  have hrun := Query.run_whole hparse hd merge
  have hholds : f.condition.holds d = true ↔ f.Selects d :=
    (Query.grown_of_parse hparse rfl).holds_iff.trans f.means_iff
  have hfails : ¬f.Selects d → Query.run merge f.query (.object entries) = .ok .filtered := by
    intro hnot
    rw [hrun, if_neg fun htrue => hnot (hholds.mp htrue)]
  refine ⟨d, hd, hparse, fun hselects => ?_, hfails, fun htwo => hfails fun hselects => ?_⟩
  · rw [hrun, if_pos (hholds.mpr hselects)]
  · have hone := hselects.relations_le
    omega

set_option maxRecDepth 2000 in
/-- The comparison holds, and the `or` behind it does no harm. -/
theorem run_flat_or :
    Query.run .overwrite ". where .a == 1 or .b" (.object [("a", .integer 1)]) =
      .ok (.selected (.object [("a", .integer 1)])) := by
  have ha : Lexeme.scan ".a" = [⟨.field, 0, ".a"⟩].map .ok ++ [.ok ⟨.eof, 2, ""⟩] := by cbv
  have hb : Lexeme.scan ".b" = [⟨.field, 0, ".b"⟩].map .ok ++ [.ok ⟨.eof, 2, ""⟩] := by cbv
  have hone : Lexeme.scan "1" = [⟨.number, 0, "1"⟩].map .ok ++ [.ok ⟨.eof, 1, ""⟩] := by cbv
  obtain ⟨f, hf⟩ : ∃ f : Flat, f = ⟨".a", .path ".a", .path ha (by simp),
      ⟨.compare .eq, "1", .integer 1, .single (.literal hone rfl rfl)⟩,
      [⟨.or, ".b", .path ".b", .single (.path hb (by simp))⟩]⟩ := ⟨_, rfl⟩
  have hsteps : f.steps.length ≤ 512 := by simp [hf, steps]
  obtain ⟨d, hd, -, hselects, -⟩ := run_flat f hsteps [("a", .integer 1)] .overwrite
  have hquery : f.query = ". where .a == 1 or .b" := by
    have hchars : f.chars = ".a == 1 or .b".toList := by
      simp [hf, chars, steps, Step.chars, Operator.symbol, Relation.symbol]
    show String.ofList (". where ".toList ++ f.chars) = _
    rw [hchars]
    rfl
  have hholds : f.Selects d := by
    obtain rfl := Option.some.inj hd
    subst hf
    refine ⟨⟨".a", .eq, rfl, rfl, by decide, _, _, _, rfl, rfl, rfl, rfl⟩, ?_⟩
    exact List.forall_mem_singleton.mpr rfl
  rw [← hquery]
  exact hselects hholds

end Flat

end Condition

end FieldQuery

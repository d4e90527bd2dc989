/-
Printed trees.

A printed tree identifies the tree, `Query.print_injective`, although text is printed as
it stands and may hold line breaks and what looks like lines of a tree.

Three facts carry this.  A line can be cut off from what follows, `line_inj`: its spaces
end at its label, and its label ends at the first line break, except for text, which has
its own initial and ends at its closing mark.  The label of a root and the trees below
it make the tree, `eq_of_label_of_children`.  And the lines of what is below a root are
those further in than the root, so they end where the next line is not, `linesAll_inj`.

The measure in the last fact is how far in the next line is.  A list of trees in front
of a line that is less far in can be told from that line without knowing how many trees
there are.

Only legible trees are identified.  A path with a line break in it would print like two
nodes, and a NaN like any other; neither is read from a text.
-/
import FieldQuery.Proofs.Numeric.Text
import FieldQuery.Proofs.Tree.Legible
import Mathlib

namespace FieldQuery

theorem Relation.symbol_injective {r s : Relation} (h : r.symbol = s.symbol) : r = s := by
  cases r <;> cases s <;> first | rfl | simp [symbol] at h

namespace Operator

/-- The label of an operator up to its relation. -/
def word : Operator → String
  | .and => "And"
  | .or => "Or"
  | .isIn => "In"
  | .contains => "Contains"
  | .compare _ => "Operation"

theorem label_injective {op op' : Operator} (h : op.label = op'.label) : op = op' := by
  cases op with
  | compare relation =>
      cases op' with
      | compare relation' =>
          have hsymbol : relation.symbol = relation'.symbol := by simpa [label] using h
          rw [Relation.symbol_injective hsymbol]
      | _ => simp [label, String.ext_iff] at h
  | _ => cases op' <;> first | rfl | simp [label, String.ext_iff] at h

end Operator

namespace Tree

/-! ### Labels

A label is a word and perhaps an argument in parentheses.  The word tells the kinds
apart, and the argument is injective for each kind by itself.
-/

/-- The label of a tree up to its argument. -/
def word : Tree → String
  | .sequence _ => "Sequence"
  | .path _ => "Chain"
  | .bool _ => "Bool"
  | .quoted _ => "Text"
  | .integer _ => "Integer"
  | .float _ => "Float"
  | .filter _ => "Where"
  | .binary op _ _ => op.word

theorem takeWhile_label (t : Tree) :
    t.label.toList.takeWhile (· != '(') = t.word.toList := by
  cases t with
  | binary op left right => cases op <;> simp [label, Operator.label, word, Operator.word]
  | _ => simp [label, word]

/-- No label begins with a space, and only that of text begins with a `T`. -/
theorem head?_label (t : Tree) : ∃ c, t.label.toList.head? = some c ∧ c ≠ ' ' ∧
    (c = 'T' → ∃ raw, t = .quoted raw) := by
  have hword : ∃ c, t.word.toList.head? = some c ∧ c ≠ ' ' ∧
      (c = 'T' → ∃ raw, t = .quoted raw) := by
    cases t with
    | binary op left right => cases op <;> simp [word, Operator.word]
    | _ => simp [word]
  obtain ⟨c, hc, hinitial⟩ := hword
  refine ⟨c, ?_, hinitial⟩
  rw [← @List.takeWhile_append_dropWhile _ (· != '(') t.label.toList, takeWhile_label,
    List.head?_append, hc]
  rfl

theorem newline_notMem_label {t : Tree} (ht : t.Readable) (hquoted : ∀ raw, t ≠ .quoted raw) :
    '\n' ∉ t.label.toList := by
  cases t with
  | quoted raw => exact absurd rfl (hquoted raw)
  | path text => simpa [label, Readable] using ht
  | bool b => cases b <;> simp [label]
  | integer n =>
      have hdigits : '\n' ∉ Digits.ofInt n.toInt := by
        obtain ⟨first, digits, heq, hfirst, hall⟩ := Digits.ofInt_eq_cons n.toInt
        rw [heq, List.mem_cons, not_or]
        refine ⟨?_, fun hmem => absurd (hall _ hmem) (by decide)⟩
        rintro rfl
        exact absurd hfirst (by decide)
      simpa [label] using hdigits
  | float x => simpa [label] using x.newline_notMem_text
  | binary op left right =>
      cases op with
      | compare relation => cases relation <;> simp [label, Operator.label, Relation.symbol]
      | _ => simp [label, Operator.label]
  | _ => simp [label]

/-- Quoted text ends at its closing mark, whatever line breaks it holds. -/
theorem label_quoted_inj {raw raw' : String} {rest more : List Char}
    (hraw : Text.Marked raw.toList) (hraw' : Text.Marked raw'.toList)
    (h : (label (.quoted raw)).toList ++ '\n' :: rest =
      (label (.quoted raw')).toList ++ '\n' :: more) : raw = raw' ∧ rest = more := by
  obtain ⟨mark, body, hbody, hmarked⟩ := hraw
  obtain ⟨mark', body', hbody', hmarked'⟩ := hraw'
  have hlabel : ∀ (raw : String) (rest : List Char),
      (label (.quoted raw)).toList ++ '\n' :: rest =
        "Text(".toList ++ (raw.toList ++ ')' :: '\n' :: rest) := by
    intro raw rest
    simp [label]
  rw [hlabel, hlabel, hmarked, hmarked'] at h
  have hinner := List.append_cancel_left h
  rw [List.cons_append, List.cons_append, List.append_assoc, List.append_assoc] at hinner
  obtain ⟨rfl, hbodies⟩ := List.cons.inj hinner
  obtain ⟨rfl, hbehind⟩ := Text.append_mark_inj hbody hbody' hbodies
  refine ⟨String.toList_injective (hmarked.trans hmarked'.symm), ?_⟩
  exact (List.cons.inj (List.cons.inj hbehind).2).2

/-- A readable label in front of a line break can be told from what follows. -/
theorem label_inj {t u : Tree} {rest more : List Char} (ht : t.Readable) (hu : u.Readable)
    (h : t.label.toList ++ '\n' :: rest = u.label.toList ++ '\n' :: more) :
    t.label = u.label ∧ rest = more := by
  obtain ⟨c, hc, -, hquoted⟩ := t.head?_label
  obtain ⟨d, hd, -, hquoted'⟩ := u.head?_label
  have hinitial : c = d := by
    have hheads := congrArg List.head? h
    rw [List.head?_append, List.head?_append, hc, hd] at hheads
    exact Option.some.inj hheads
  by_cases htext : c = 'T'
  · obtain ⟨raw, rfl⟩ := hquoted htext
    obtain ⟨raw', rfl⟩ := hquoted' (hinitial ▸ htext)
    obtain ⟨rfl, hrest⟩ := label_quoted_inj ht hu h
    exact ⟨rfl, hrest⟩
  · have hlines : ∀ {t : Tree}, t.Readable → t.label.toList.head? = some c →
        '\n' ∉ t.label.toList := by
      intro t ht hhead
      refine newline_notMem_label ht fun raw heq => htext ?_
      rw [heq] at hhead
      simpa [label] using hhead.symm
    obtain ⟨hlabel, hrest⟩ := Text.append_mark_inj (hlines ht hc) (hlines hu (hinitial ▸ hd)) h
    exact ⟨String.toList_injective hlabel, hrest⟩

/-! ### Lines

From a line only its label is needed once the spaces in front of it are counted.
-/

/-- How far in the first line is. -/
def indent (cs : List Char) : Nat := (cs.takeWhile (· == ' ')).length

theorem line_append (depth : Nat) (t : Tree) (rest : List Char) :
    line depth t ++ rest = List.replicate depth ' ' ++ (t.label.toList ++ '\n' :: rest) := by
  simp [line]

theorem indent_line (depth : Nat) (t : Tree) (rest : List Char) :
    indent (line depth t ++ rest) = depth := by
  obtain ⟨c, hc, hspace, -⟩ := t.head?_label
  rw [indent, line_append, Text.takeWhile_stop, List.length_replicate]
  · intro c' hc'
    rw [List.eq_of_mem_replicate hc']
    rfl
  · intro c' hc'
    rw [List.head?_append, hc] at hc'
    obtain rfl := Option.some.inj hc'
    exact beq_eq_false_iff_ne.mpr hspace

/-- The line of a readable root can be told from what follows. -/
theorem line_inj {t u : Tree} {depth depth' : Nat} {rest more : List Char} (ht : t.Readable)
    (hu : u.Readable) (h : line depth t ++ rest = line depth' u ++ more) :
    depth = depth' ∧ t.label = u.label ∧ rest = more := by
  have hdepth : depth = depth' := by
    rw [← indent_line depth t rest, h, indent_line]
  rw [hdepth, line_append, line_append] at h
  exact ⟨hdepth, label_inj ht hu (List.append_cancel_left h)⟩

/-! ### What identifies a tree

Kinds are numbered so that different kinds are told apart by computing, and not by
comparing each with each.
-/

/-- A number for each kind of tree. -/
def kind : Tree → Nat
  | .sequence _ => 0
  | .path _ => 1
  | .bool _ => 2
  | .quoted _ => 3
  | .integer _ => 4
  | .float _ => 5
  | .filter _ => 6
  | .binary .. => 7

/-- The kind of the trees with this word. -/
def kindOfWord : String → Nat
  | "Sequence" => 0
  | "Chain" => 1
  | "Bool" => 2
  | "Text" => 3
  | "Integer" => 4
  | "Float" => 5
  | "Where" => 6
  | _ => 7

theorem kindOfWord_word (t : Tree) : kindOfWord t.word = t.kind := by
  cases t with
  | binary op left right => cases op <;> rfl
  | _ => rfl

theorem kind_eq_of_label {t u : Tree} (h : t.label = u.label) : t.kind = u.kind := by
  have hword : t.word = u.word := by
    apply String.toList_injective
    rw [← takeWhile_label, h, takeWhile_label]
  rw [← kindOfWord_word, hword, kindOfWord_word]

/-- The label of the root and the trees below it identify the tree. -/
theorem eq_of_label_of_children {t u : Tree} (ht : t.Readable) (hu : u.Readable)
    (hlabel : t.label = u.label) (hchildren : t.children = u.children) : t = u := by
  have hkind := kind_eq_of_label hlabel
  cases t with
  | sequence items =>
      cases u with
      | sequence items' => exact congrArg _ hchildren
      | _ => simp [kind] at hkind
  | path text =>
      cases u with
      | path text' => simpa [label] using hlabel
      | _ => simp [kind] at hkind
  | bool b =>
      cases u with
      | bool b' => cases b <;> cases b' <;> simp [label] at hlabel ⊢
      | _ => simp [kind] at hkind
  | quoted raw =>
      cases u with
      | quoted raw' => simpa [label] using hlabel
      | _ => simp [kind] at hkind
  | integer n =>
      cases u with
      | integer n' =>
          have hdigits : Digits.ofInt n.toInt = Digits.ofInt n'.toInt := by
            apply String.ofList_injective
            simpa [label] using hlabel
          rw [Int64.toInt_inj.mp (Digits.ofInt_injective hdigits)]
      | _ => simp [kind] at hkind
  | float x =>
      cases u with
      | float x' =>
          have htext : x.text = x'.text := by simpa [label] using hlabel
          rw [Double.text_injective ht hu htext]
      | _ => simp [kind] at hkind
  | filter condition =>
      cases u with
      | filter condition' => exact congrArg _ (List.cons.inj hchildren).1
      | _ => simp [kind] at hkind
  | binary op left right =>
      cases u with
      | binary op' left' right' =>
          obtain ⟨rfl, hright⟩ := List.cons.inj hchildren
          obtain ⟨rfl, -⟩ := List.cons.inj hright
          rw [Operator.label_injective hlabel]
      | _ => simp [kind] at hkind

/-! ### From the lines back to the tree

The induction is over one of the two trees; the other one is whatever has the same
lines.
-/

theorem lines_eq (depth : Nat) (t : Tree) :
    t.lines depth = line depth t ++ linesAll (depth + 1) t.children := by
  cases t <;> simp [lines, linesAll, children]

theorem indent_lines (depth : Nat) (t : Tree) (rest : List Char) :
    indent (t.lines depth ++ rest) = depth := by
  rw [lines_eq, List.append_assoc, indent_line]

theorem indent_linesAll_le {depth : Nat} {rest : List Char} (hrest : indent rest ≤ depth)
    (ts : List Tree) : indent (linesAll depth ts ++ rest) ≤ depth := by
  cases ts with
  | nil => exact hrest
  | cons t ts =>
      rw [linesAll, List.append_assoc, indent_lines]

/-- The tree can be read off its lines wherever no line further in follows. -/
def Identified (depth : Nat) (t : Tree) : Prop :=
  ∀ {u : Tree} {rest more : List Char}, Legible u → indent rest ≤ depth → indent more ≤ depth →
    t.lines depth ++ rest = u.lines depth ++ more → t = u ∧ rest = more

/-- Trees in a row can be read off their lines where the next line is less far in. -/
theorem linesAll_inj {depth : Nat} {ts us : List Tree} {rest more : List Char}
    (hts : ∀ t ∈ ts, t.Identified depth) (hus : ∀ u ∈ us, Legible u) (hrest : indent rest < depth)
    (hmore : indent more < depth) (h : linesAll depth ts ++ rest = linesAll depth us ++ more) :
    ts = us ∧ rest = more := by
  induction ts generalizing us with
  | nil =>
      cases us with
      | nil => exact ⟨rfl, h⟩
      | cons u us =>
          -- what follows would begin with the line of `u`
          rw [linesAll, linesAll, List.nil_append, List.append_assoc] at h
          rw [h, indent_lines] at hrest
          exact absurd hrest (Nat.lt_irrefl _)
  | cons t ts ih =>
      cases us with
      | nil =>
          rw [linesAll, linesAll, List.nil_append, List.append_assoc] at h
          rw [← h, indent_lines] at hmore
          exact absurd hmore (Nat.lt_irrefl _)
      | cons u us =>
          obtain ⟨ht, htsRest⟩ := List.forall_mem_cons.mp hts
          obtain ⟨hu, husRest⟩ := List.forall_mem_cons.mp hus
          rw [linesAll, linesAll, List.append_assoc, List.append_assoc] at h
          obtain ⟨hfirst, hbehind⟩ := ht hu (indent_linesAll_le hrest.le ts)
            (indent_linesAll_le hmore.le us) h
          obtain ⟨hothers, hequal⟩ := ih htsRest husRest hbehind
          exact ⟨by rw [hfirst, hothers], hequal⟩

theorem Legible.identified {t : Tree} (ht : Legible t) : ∀ depth, t.Identified depth := by
  induction ht with
  | @node t hroot hchildren ih =>
      -- the first lines are those of the roots, and what is below them is one further in
      intro depth u rest more hu hrest hmore h
      rw [lines_eq, lines_eq, List.append_assoc, List.append_assoc] at h
      obtain ⟨-, hlabel, hbelow⟩ := line_inj hroot hu.root h
      have hbelow := linesAll_inj (fun child hchild => ih child hchild (depth + 1)) hu.children
        (Nat.lt_succ_of_le hrest) (Nat.lt_succ_of_le hmore) hbelow
      exact ⟨eq_of_label_of_children hroot hu.root hlabel hbelow.1, hbelow.2⟩

/-- Legible trees that are printed alike are the same. -/
theorem Legible.eq_of_print {t u : Tree} (ht : Legible t) (hu : Legible u)
    (h : t.print = u.print) : t = u := by
  have hlines : t.lines 0 ++ [] = u.lines 0 ++ [] := by
    rw [List.append_nil, List.append_nil]
    exact String.ofList_injective h
  exact (ht.identified 0 hu (Nat.le_refl _) (Nat.le_refl _) hlines).1

end Tree

namespace Query

/--
**A printed tree identifies the tree.**  If the trees of two texts are printed alike, they are
the same tree, with the same numbers bit for bit.
-/
theorem print_injective {text text' : String} {q q' : Query} (hq : parse text = .ok q)
    (hq' : parse text' = .ok q') (h : q.toTree.print = q'.toTree.print) :
    q.toTree = q'.toTree :=
  (legible_of_parse hq).eq_of_print (legible_of_parse hq') h

set_option maxRecDepth 2000 in
/-- Text with a line break in it. -/
theorem print_injective_newline : ∃ q q', parse "where .a!'\n'" = .ok q ∧
    parse "where(.a)!'\n'" = .ok q' ∧ q.toTree = q'.toTree := by
  have hq : parse "where .a!'\n'" =
      .ok ⟨[], some (.binary (.compare .not) (.path ".a") (.quoted "'\n'"))⟩ := by cbv
  have hq' : parse "where(.a)!'\n'" =
      .ok ⟨[], some (.binary (.compare .not) (.path ".a") (.quoted "'\n'"))⟩ := by cbv
  exact ⟨_, _, hq, hq', print_injective hq hq' rfl⟩

end Query

end FieldQuery

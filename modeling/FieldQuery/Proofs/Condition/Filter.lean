/-
The conditions of whole queries.

Before `where` a reading passes over everything that is not a grouping lexeme and keeps
the paths; behind it the condition reader takes over.  So a text that is cut without
error has a condition exactly if the lexemes behind its first `where` derive one, which
is `parse_filter_iff`.

Derivation alone does not make a query.  A bare operand is derived and is no condition,
and both limits turn away texts that the grammar reads: `derived_not_parsed` has a text
for each.  To write texts beyond the limits they are built from pieces, `chained` and
`nested`, and what these are read as is shown by induction on their length.
-/
import FieldQuery.Proofs.Condition.Soundness
import FieldQuery.Proofs.Scan.Lossless
import FieldQuery.Proofs.Scan.Written
import FieldQuery.Query.Reading

namespace FieldQuery

/-! ### Phrases of a text -/

/-- The phrases of a text that is cut without error are those of its lexemes. -/
theorem Phrase.ofText_eq_group {text : String} {ls : List Lexeme} {last : Lexeme}
    (h : Lexeme.scan text = ls.map .ok ++ [.ok last]) : ofText text = group ls := by
  obtain ⟨heof, hlast⟩ := Lexeme.ends_of_scan h
  have hall : ofText text = group (ls ++ [last]) := by
    rw [ofText, h, group, List.map_append]
    rfl
  rw [hall, group_append_eof heof (by rw [hlast])]

/-- Lexemes that are read as fields make one path, and its text is all of their texts. -/
theorem Phrase.fields_of_words {ls : List Lexeme} {names : List String} (hne : names ≠ [])
    (h : ls.map Lexeme.word = names.map (Prod.mk Token.field)) :
    ∃ first more, ls = first :: more ∧ (∀ l ∈ first :: more, l.token = .field) ∧
      pathText first more = names.foldr (· ++ ·) "" := by
  have hnames : names = ls.map Lexeme.text := by
    have htexts := congrArg (List.map Prod.snd) h
    simpa [Lexeme.word, Function.comp_def] using htexts.symm
  have hfields : ∀ l ∈ ls, l.token = .field := by
    intro l hl
    have hmem : l.word ∈ names.map (Prod.mk Token.field) := h ▸ List.mem_map_of_mem hl
    obtain ⟨name, -, hname⟩ := List.mem_map.mp hmem
    exact Lexeme.token_of_word hname.symm
  subst hnames
  cases ls with
  | nil => exact absurd rfl hne
  | cons first more =>
      refine ⟨first, more, rfl, hfields, ?_⟩
      rw [List.foldr_map]
      rfl

namespace Reading

/-! ### What stands before the condition

Phrases in front of the first `where` are passed over one by one, and all that is left
of them are their paths.  A text is read in the same way whatever stands behind the
phrase at which this ends.
-/

/-- The reading goes on behind the phrase. -/
def Passes : Phrase → Prop
  | .path _ _ => True
  | .lexeme l => l.token ≠ .whereKeyword ∧ l.token.isGrouping = false
  | .broken _ _ => False

/-- The path of a phrase that is a run of fields. -/
def path? : Phrase → Option String
  | .path first more => some (Phrase.pathText first more)
  | _ => none

/-- Phrases that are passed over add their paths to the selectors. -/
theorem nextFrom_append (operators size : Nat) (phrases more : List Phrase) :
    ∀ selectors, (∀ p ∈ phrases, Passes p) →
      nextFrom operators size selectors (phrases ++ more) =
        nextFrom operators size (selectors ++ phrases.filterMap path?) more := by
  induction phrases with
  | nil =>
      intro selectors _
      rw [List.filterMap_nil, List.append_nil]
      rfl
  | cons p rest ih =>
      intro selectors hpasses
      have hrest : ∀ q ∈ rest, Passes q := fun q hq => hpasses q (List.mem_cons_of_mem _ hq)
      have hp := hpasses p List.mem_cons_self
      cases p with
      | path first more =>
          rw [List.cons_append, nextFrom, ih _ hrest, List.append_assoc]
          rfl
      | lexeme l =>
          rw [List.cons_append, nextFrom, if_neg hp.1, if_neg (by simp [hp.2]), ih _ hrest]
          rfl
      | broken fields error => exact absurd hp id

theorem passes_group {ls : List Lexeme} (heof : ∀ l ∈ ls, l.token ≠ .eof)
    (h : ∀ l ∈ ls, l.token ≠ .whereKeyword ∧ l.token.isGrouping = false) :
    ∀ p ∈ Phrase.group ls, Passes p := by
  intro p hp
  have hmem : ∀ l ∈ p.lexemes, l ∈ ls := by
    intro l hl
    rw [← Phrase.lexemes_group heof]
    exact List.mem_flatMap.mpr ⟨p, hp, hl⟩
  have hsound := Phrase.sound_group heof p hp
  cases p with
  | path first more => exact trivial
  | lexeme l => exact h l (hmem l List.mem_cons_self)
  | broken fields error => exact hsound

end Reading

/-- A run of fields with these names is their path. -/
theorem Condition.derives_fields {ls : List Lexeme} {names : List String} (hne : names ≠ [])
    (h : ls.map Lexeme.word = names.map (Prod.mk Token.field)) :
    Derives .operand ls (.path (names.foldr (· ++ ·) "")) := by
  obtain ⟨first, more, rfl, hfields, htext⟩ := Phrase.fields_of_words hne h
  exact htext ▸ .path hfields

namespace Query

open Condition

/-- A text is read from its first phrase, with nothing selected and no operator counted. -/
theorem parse_eq_nextFrom (text : String) : parse text =
    (Reading.nextFrom 0 (Text.byteLength text.toList) [] (Phrase.ofText text)).1 := rfl

/-- Lexemes that are passed over leave their paths, and what stands behind them is read next,
whatever follows it. -/
theorem parse_of_scan {text : String} {front : List Lexeme} {l : Lexeme}
    {behind : List (Except ScanError Lexeme)}
    (hscan : Lexeme.scan text = front.map .ok ++ .ok l :: behind)
    (hfree : ∀ l ∈ front, l.token ≠ .whereKeyword ∧ l.token.isGrouping = false)
    (hfield : l.token ≠ .field) (hl : l.token ≠ .eof) :
    parse text = (Reading.nextFrom 0 (Text.byteLength text.toList)
      ((Phrase.group front).filterMap Reading.path?) (.lexeme l :: Phrase.ofLexemes behind)).1 := by
  have heof := Lexeme.ne_eof_of_scan hscan
  have hphrases : Phrase.ofText text =
      Phrase.group front ++ .lexeme l :: Phrase.ofLexemes behind := by
    rw [Phrase.ofText, hscan, Phrase.ofLexemes_append heof hfield hl]
  rw [parse_eq_nextFrom, hphrases,
    Reading.nextFrom_append _ _ _ _ _ (Reading.passes_group heof hfree), List.nil_append]

theorem parse_of_where {text : String} {front : List Lexeme} {w : Lexeme}
    {behind : List (Except ScanError Lexeme)}
    (hscan : Lexeme.scan text = front.map .ok ++ .ok w :: behind)
    (hfree : ∀ l ∈ front, l.token ≠ .whereKeyword ∧ l.token.isGrouping = false)
    (hw : w.token = .whereKeyword) :
    parse text = (Reading.nextCondition ((Phrase.group front).filterMap Reading.path?) w.pos
      ⟨Phrase.ofLexemes behind, 0, Text.byteLength text.toList⟩).1 := by
  rw [parse_of_scan hscan hfree (by simp [hw]) (by simp [hw]), Reading.nextFrom, if_pos hw]

theorem parse_of_grouping {text : String} {front : List Lexeme} {l : Lexeme}
    {behind : List (Except ScanError Lexeme)}
    (hscan : Lexeme.scan text = front.map .ok ++ .ok l :: behind)
    (hfree : ∀ l ∈ front, l.token ≠ .whereKeyword ∧ l.token.isGrouping = false)
    (hgrouping : l.token.isGrouping = true) : parse text = .error (.unexpected l) := by
  have hl : l.token ≠ .whereKeyword ∧ l.token ≠ .field ∧ l.token ≠ .eof := by
    refine ⟨?_, ?_, ?_⟩ <;> intro htoken <;> simp [htoken, Token.isGrouping] at hgrouping
  rw [parse_of_scan hscan hfree hl.2.1 hl.2.2, Reading.nextFrom, if_neg hl.1, if_pos hgrouping]

/-- Where the text cannot be cut and everything in front is passed over, that is the error. -/
theorem parse_of_scanError {text : String} {ls : List Lexeme} {e : ScanError}
    (hscan : Lexeme.scan text = ls.map .ok ++ [.error e])
    (hfree : ∀ l ∈ ls, l.token ≠ .whereKeyword ∧ l.token.isGrouping = false) :
    parse text = .error (.scan e) := by
  obtain ⟨front, fields, rfl, hphrases⟩ :=
    Phrase.ofLexemes_error (Lexeme.ne_eof_of_scan hscan) e
  have hpasses := Reading.passes_group
    (fun l hl => Lexeme.ne_eof_of_scan hscan l (List.mem_append_left fields hl))
    (fun l hl => hfree l (List.mem_append_left fields hl))
  rw [parse_eq_nextFrom, Phrase.ofText, hscan, hphrases, Reading.nextFrom_append _ _ _ _ _ hpasses,
    Reading.nextFrom]

/-! ### Texts with a condition

`CutAtWhere` names the parts of such a text.  A second `where` may follow; it is in the
lexemes behind the first one and the condition reader refuses it.
-/

/-- The text is cut without error into what stands before its first `where`, the word itself
and what stands behind it, and nothing groups before it. -/
structure CutAtWhere (text : String) (before : List Lexeme) (w : Lexeme) (ls : List Lexeme) :
    Prop where
  scan : ∃ last : Lexeme, Lexeme.scan text = (before ++ w :: ls).map .ok ++ [.ok last]
  keyword : w.token = .whereKeyword
  free : ∀ l ∈ before, l.token ≠ .whereKeyword ∧ l.token.isGrouping = false

section

variable {text : String} {before ls : List Lexeme} {w : Lexeme}

theorem CutAtWhere.ne_eof (h : CutAtWhere text before w ls) :
    ∀ l ∈ before ++ w :: ls, l.token ≠ .eof := by
  obtain ⟨last, hscan⟩ := h.scan
  exact (Lexeme.ends_of_scan hscan).1

/-- A text that is read into words is cut at its first `where`. -/
theorem exists_cutAtWhere {cs : List Char} {front words : List (Token × String)}
    (h : Lexeme.Reads cs [] (front ++ (.whereKeyword, "where") :: words))
    (hfront : ∀ x ∈ front, x.1 ≠ .whereKeyword ∧ x.1.isGrouping = false) :
    ∃ before w ls, CutAtWhere (String.ofList cs) before w ls ∧ before.map Lexeme.word = front ∧
      ls.map Lexeme.word = words := by
  obtain ⟨all, last, hwords, hscan⟩ := h.scan
  obtain ⟨before, behind, rfl, rfl, hbehind⟩ := List.map_eq_append_iff.mp hwords
  obtain ⟨w, ls, rfl, hw, hls⟩ := List.map_eq_cons_iff.mp hbehind
  refine ⟨before, w, ls, ⟨⟨last, hscan⟩, Lexeme.token_of_word hw, fun l hl => ?_⟩, rfl, hls⟩
  exact hfront l.word (List.mem_map_of_mem hl)

/-- The condition of a text is read from what follows its first `where`. -/
theorem parse_eq_nextCondition (h : CutAtWhere text before w ls) :
    parse text = (Reading.nextCondition ((Phrase.group before).filterMap Reading.path?) w.pos
      ⟨Phrase.group ls, 0, Text.byteLength text.toList⟩).1 := by
  obtain ⟨last, hscan⟩ := h.scan
  have hlast : last.token = .eof := by rw [(Lexeme.ends_of_scan hscan).2]
  have hbehind : Phrase.ofLexemes (ls.map .ok ++ [.ok last]) = Phrase.group ls := by
    rw [← Phrase.group_append_eof (fun l hl => h.ne_eof l (by simp [hl])) hlast, Phrase.group,
      List.map_append]
    rfl
  rw [List.map_append, List.map_cons, List.append_assoc, List.cons_append] at hscan
  rw [parse_of_where hscan h.free h.keyword, hbehind]

end

/-- The reader's tree is the condition if it is a condition at all. -/
theorem nextCondition_eq_ok_iff (selectors : List String) (pos : Nat) (r : Reading) (q : Query) :
    (Reading.nextCondition selectors pos r).1 = .ok q ↔
      ∃ t, (run r.size (.start r.operators) r.pending).tree? = .ok (some t) ∧
        t.isCondition = true ∧ q = ⟨selectors, some t⟩ := by
  unfold Reading.nextCondition
  dsimp only
  split
  · rename_i e he
    simp [he]
  · rename_i hnone
    simp [hnone]
  · rename_i t ht
    split
    · rename_i hcondition
      rw [ht]
      constructor
      · intro h
        exact ⟨t, rfl, hcondition, (Except.ok.inj h).symm⟩
      · rintro ⟨t', ht', -, rfl⟩
        obtain rfl : t = t' := by simpa using ht'
        rfl
    · rename_i hcondition
      rw [ht]
      constructor
      · intro h
        simp at h
      · rintro ⟨t', ht', hcondition', -⟩
        obtain rfl : t = t' := by simpa using ht'
        exact absurd hcondition' hcondition

theorem nextCondition_of_error (selectors : List String) (pos : Nat) {r : Reading} {e : ParseError}
    (h : (run r.size (.start r.operators) r.pending).tree? = .error e) :
    (Reading.nextCondition selectors pos r).1 = .error e := by
  simp only [Reading.nextCondition, h]

/-- What follows `where` is at fault by itself, or else it is no condition. -/
theorem error_of_nextCondition {selectors : List String} {pos : Nat} {r : Reading} {e : ParseError}
    (h : (Reading.nextCondition selectors pos r).1 = .error e) :
    (run r.size (.start r.operators) r.pending).tree? = .error e ∨ e = .invalidCondition pos := by
  unfold Reading.nextCondition at h
  dsimp only at h
  split at h
  · rename_i error herror
    obtain rfl := Except.error.inj h
    exact .inl herror
  · exact .inr (Except.error.inj h).symm
  · split at h
    · simp at h
    · exact .inr (Except.error.inj h).symm

/-- The last part of a query's tree is a filter exactly if the query has a condition. -/
theorem toTree_eq_filter_iff (q : Query) (c : Tree) :
    (∃ items, q.toTree = .sequence (items ++ [.filter c])) ↔ q.condition? = some c := by
  obtain ⟨selectors, condition?⟩ := q
  constructor
  · rintro ⟨items, htree⟩
    simp only [toTree, Tree.sequence.injEq] at htree
    have hlast := congrArg List.getLast? htree
    rw [List.getLast?_append, List.getLast?_append] at hlast
    cases condition? with
    | none =>
        simp only [Option.toList_none, List.map_nil, List.getLast?_nil, Option.none_or,
          List.getLast?_singleton, Option.some_or, List.getLast?_map, Option.map_eq_some_iff]
          at hlast
        obtain ⟨text, -, htext⟩ := hlast
        simp at htext
    | some condition =>
        simpa using hlast
  · rintro rfl
    exact ⟨selectors.map .path, rfl⟩

/-- What a text is read as, if its lexemes derive a condition within the limits. -/
theorem parse_eq_ok_iff {text : String} {before ls : List Lexeme} {w : Lexeme}
    (h : CutAtWhere text before w ls) (q : Query) :
    parse text = .ok q ↔ ∃ c, (Derives .condition ls c ∧ c.isCondition = true ∧ Within 0 ls ∧
      operatorCount ls ≤ maxOperators) ∧
        q = ⟨(Phrase.group before).filterMap Reading.path?, some c⟩ := by
  have heof : ∀ l ∈ ls, l.token ≠ .eof := fun l hl => h.ne_eof l (by simp [hl])
  have hrun := run_group_iff heof (Text.byteLength text.toList)
  rw [parse_eq_nextCondition h, nextCondition_eq_ok_iff]
  constructor
  · rintro ⟨c, hc, hisCondition, rfl⟩
    obtain ⟨hderives, hwithin, hfew⟩ := (hrun c).mp hc
    exact ⟨c, ⟨hderives, hisCondition, hwithin, hfew⟩, rfl⟩
  · rintro ⟨c, ⟨hderives, hisCondition, hwithin, hfew⟩, rfl⟩
    exact ⟨c, (hrun c).mpr ⟨hderives, hwithin, hfew⟩, hisCondition, rfl⟩

/-! ### Texts of any length

They are written from pieces that end in a space, so that each piece is read in front of
anything.
-/

/-- This many operators without parentheses. -/
def chained (count : Nat) : String :=
  String.ofList ("where ".toList ++
    (".a ".toList ++ (List.replicate count ("! ".toList ++ ".a ".toList)).flatten))

/-- The tree of `chained`. -/
def chain : Nat → Tree
  | 0 => .path ".a"
  | count + 1 => .binary (.compare .not) (chain count) (.path ".a")

private theorem reads_a (rest : List Char) :
    Lexeme.Reads ".a ".toList rest [(.field, ".a")] := by
  have hfield : Lexeme.Reads ".a".toList (' ' :: rest) [(.field, ".a")] :=
    Lexeme.reads_field (List.all_eq_true.mp (by decide)) (Text.stops_space rest).not_word
  exact hfield.spaced

private theorem reads_not (rest : List Char) :
    Lexeme.Reads "! ".toList rest [(.operator (.compare .not), "!")] :=
  (Lexeme.reads_relation .not (Text.stops_space rest)).spaced

private theorem derives_a {l : Lexeme} (h : l.word = (.field, ".a")) :
    Derives .operand [l] (.path ".a") := by
  have hnames : [l].map Lexeme.word = [".a"].map (Prod.mk Token.field) := by
    rw [List.map_singleton, h]
    rfl
  exact derives_fields (by decide) hnames

private theorem derives_chain (count : Nat) : ∀ ls : List Lexeme,
    ls.map Lexeme.word = (.field, ".a") :: (List.replicate count
      [(.operator (.compare .not), "!"), (.field, ".a")]).flatten →
      Derives .condition ls (chain count) ∧ operatorCount ls = count ∧ opens ls = 0 := by
  induction count with
  | zero =>
      intro ls h
      obtain ⟨l, rest, rfl, hl, hrest⟩ := List.map_eq_cons_iff.mp h
      obtain rfl := List.map_eq_nil_iff.mp hrest
      refine ⟨(derives_a hl).condition, ?_, ?_⟩
      · simp [operatorCount_cons, isOperator, Lexeme.token_of_word hl]
      · simp [opens_cons, Lexeme.token_of_word hl]
  | succ count ih =>
      intro ls h
      rw [List.replicate_succ', List.flatten_append, ← List.cons_append,
        List.map_eq_append_iff] at h
      obtain ⟨front, back, rfl, hfront, hback⟩ := h
      obtain ⟨hderives, hcount, hopens⟩ := ih front hfront
      obtain ⟨op, rest, rfl, hop, hrest⟩ := List.map_eq_cons_iff.mp hback
      obtain ⟨right, rest, rfl, hright, hnil⟩ := List.map_eq_cons_iff.mp hrest
      obtain rfl := List.map_eq_nil_iff.mp hnil
      have htoken := Lexeme.token_of_word hop
      have hfield := Lexeme.token_of_word hright
      refine ⟨hderives.operate htoken (.ofOperand (derives_a hright)), ?_, ?_⟩
      · simp [operatorCount_cons, isOperator, htoken, hfield, hcount]
      · simp [opens_cons, htoken, hfield, hopens]

/-- Behind the `where` of such a text stands a condition. -/
theorem cut_chained (count : Nat) :
    ∃ before w ls, CutAtWhere (chained count) before w ls ∧
      Derives .condition ls (chain count) ∧ operatorCount ls = count ∧ opens ls = 0 := by
  have hreads : Lexeme.Reads ("where ".toList ++
      (".a ".toList ++ (List.replicate count ("! ".toList ++ ".a ".toList)).flatten)) []
      ((.whereKeyword, "where") :: (.field, ".a") :: (List.replicate count
        [(.operator (.compare .not), "!"), (.field, ".a")]).flatten) := by
    have hpair : ∀ rest, Lexeme.Reads ("! ".toList ++ ".a ".toList) rest
        [(.operator (.compare .not), "!"), (.field, ".a")] :=
      fun rest => (reads_not _).append (reads_a rest)
    have hall := (Lexeme.reads_where _).append
      ((reads_a _).append (Lexeme.Reads.replicate hpair count []))
    rwa [List.singleton_append, List.singleton_append] at hall
  obtain ⟨before, w, ls, hcut, -, hls⟩ := @exists_cutAtWhere _ [] _ hreads (by simp)
  exact ⟨before, w, ls, hcut, derives_chain count ls hls⟩

/-! ### The conditions of a text

A query has its condition as the last part of its tree, so the text determines it.
-/

/--
**A text has the conditions that its lexemes derive.**  Cut without error and without grouping
before its first `where`, a text is a query with this condition exactly if the lexemes behind
`where` derive it, it is no bare operand, and the limits on open parentheses and on operators
are kept.
-/
theorem parse_filter_iff {text : String} {before ls : List Lexeme} {w : Lexeme}
    (h : CutAtWhere text before w ls) (c : Tree) :
    (∃ q items, parse text = .ok q ∧ q.toTree = .sequence (items ++ [.filter c])) ↔
      Derives .condition ls c ∧ c.isCondition = true ∧ Within 0 ls ∧
        operatorCount ls ≤ maxOperators := by
  constructor
  · rintro ⟨q, items, hq, htree⟩
    have hcondition := (toTree_eq_filter_iff q c).mp ⟨items, htree⟩
    obtain ⟨c', hc', rfl⟩ := (parse_eq_ok_iff h q).mp hq
    obtain rfl : c' = c := by simpa using hcondition
    exact hc'
  · intro hc
    obtain ⟨items, htree⟩ := (toTree_eq_filter_iff
      ⟨(Phrase.group before).filterMap Reading.path?, some c⟩ c).mpr rfl
    exact ⟨_, items, (parse_eq_ok_iff h _).mpr ⟨c, hc, rfl⟩, htree⟩

/-- Operators are folded to the left. -/
theorem parse_filter_iff_chained :
    ∃ q items, parse (chained 2) = .ok q ∧ q.toTree = .sequence (items ++ [.filter
      (.binary (.compare .not) (.binary (.compare .not) (.path ".a") (.path ".a"))
        (.path ".a"))]) := by
  obtain ⟨before, w, ls, hcut, hderives, hcount, hopens⟩ := cut_chained 2
  have hwithin : Within 0 ls := within_of_opens_eq_zero (by decide) hopens
  have hfew : operatorCount ls ≤ maxOperators := by
    rw [hcount]
    decide
  exact (parse_filter_iff hcut (chain 2)).mpr ⟨hderives, rfl, hwithin, hfew⟩

/-! ### Derived and still refused

A bare operand is no condition, and the limits turn away texts that the grammar reads.
-/

/-- What stands behind the first `where` derives the condition, and still the text is no query
with this condition. -/
def Refused (text : String) (c : Tree) : Prop :=
  (∃ before w ls, CutAtWhere text before w ls ∧ Derives .condition ls c) ∧
    ¬∃ q items, parse text = .ok q ∧ q.toTree = .sequence (items ++ [.filter c])

theorem refused_bare : Refused "where .a" (.path ".a") := by
  have hfield : Lexeme.Reads ".a".toList [] [(.field, ".a")] :=
    Lexeme.reads_field (List.all_eq_true.mp (by decide)) (by simp)
  have hreads := (Lexeme.reads_where _).append hfield
  obtain ⟨before, w, ls, hcut, -, hls⟩ := @exists_cutAtWhere _ [] _ hreads (by simp)
  replace hcut : CutAtWhere "where .a" before w ls := hcut
  obtain ⟨pos, rfl⟩ := Lexeme.exists_of_word hls
  have hparse : parse "where .a" = .error (.invalidCondition w.pos) := by
    rw [parse_eq_nextCondition hcut]
    rfl
  refine ⟨⟨before, w, _, hcut, (derives_a rfl).condition⟩, ?_⟩
  rintro ⟨q, items, hq, -⟩
  simp [hparse] at hq

theorem refused_chained {count : Nat} (h : maxOperators < count) :
    Refused (chained count) (chain count) := by
  obtain ⟨before, w, ls, hcut, hderives, hcount, -⟩ := cut_chained count
  refine ⟨⟨before, w, ls, hcut, hderives⟩, ?_⟩
  rintro ⟨q, items, hq, -⟩
  obtain ⟨c, ⟨-, -, -, hfew⟩, -⟩ := (parse_eq_ok_iff hcut q).mp hq
  omega

/-- A comparison inside this many parentheses. -/
def nested (depth : Nat) : String :=
  String.ofList ("where ".toList ++ (List.replicate depth '(' ++
    (".a ".toList ++ ("! ".toList ++ (".a ".toList ++ List.replicate depth ')')))))

private theorem derives_nested (depth : Nat) : ∀ ls : List Lexeme,
    ls.map Lexeme.word = (List.replicate depth (.leftParen, "(")) ++
      ([(.field, ".a"), (.operator (.compare .not), "!"), (.field, ".a")] ++
        List.replicate depth (.rightParen, ")")) →
      Derives .condition ls (.binary (.compare .not) (.path ".a") (.path ".a")) := by
  induction depth with
  | zero =>
      intro ls h
      exact (derives_chain 1 ls h).1
  | succ depth ih =>
      intro ls h
      rw [List.replicate_succ, List.replicate_succ', List.cons_append, ← List.append_assoc,
        ← List.append_assoc] at h
      obtain ⟨opening, inner, closing, rest, rfl, hopening, hinner, hclosing, hnil⟩ :=
        Lexeme.exists_enclosed h
      obtain rfl := List.map_eq_nil_iff.mp hnil
      rw [List.append_assoc] at hinner
      have hgroup := Derives.group (Lexeme.token_of_word hopening) (ih inner hinner)
        (Lexeme.token_of_word hclosing)
      exact hgroup.condition

theorem refused_nested {depth : Nat} (h : maxDepth < depth) :
    Refused (nested depth) (.binary (.compare .not) (.path ".a") (.path ".a")) := by
  have hreads : Lexeme.Reads ("where ".toList ++ (List.replicate depth '(' ++ (".a ".toList ++
      ("! ".toList ++ (".a ".toList ++ List.replicate depth ')'))))) []
      ((.whereKeyword, "where") :: (List.replicate depth (.leftParen, "(") ++
        ([(.field, ".a"), (.operator (.compare .not), "!"), (.field, ".a")] ++
          List.replicate depth (.rightParen, ")")))) := by
    have hopens := Lexeme.Reads.replicate Lexeme.reads_leftParen depth
    have hcloses := Lexeme.Reads.replicate Lexeme.reads_rightParen depth
    simp only [List.flatten_replicate_singleton] at hopens hcloses
    have hall := (Lexeme.reads_where _).append ((hopens _).append ((reads_a _).append
      ((reads_not _).append ((reads_a _).append (hcloses [])))))
    rwa [List.singleton_append] at hall
  obtain ⟨before, w, ls, hcut, -, hls⟩ := @exists_cutAtWhere _ [] _ hreads (by simp)
  refine ⟨⟨before, w, ls, hcut, derives_nested depth ls hls⟩, ?_⟩
  rintro ⟨q, items, hq, -⟩
  obtain ⟨c, ⟨-, -, hwithin, -⟩, -⟩ := (parse_eq_ok_iff hcut q).mp hq
  -- the opening parentheses alone are too many
  obtain ⟨front, back, rfl, hfront, -⟩ := List.map_eq_append_iff.mp hls
  have htoken : ∀ l ∈ front, l.token = .leftParen := by
    intro l hl
    have hmem : l.word ∈ List.replicate depth (Token.leftParen, "(") :=
      hfront ▸ List.mem_map_of_mem hl
    exact Lexeme.token_of_word (List.eq_of_mem_replicate hmem)
  have hopens : opens front = front.length :=
    List.countP_eq_length.mpr fun l hl => by simp [htoken l hl]
  have hcloses : closes front = 0 :=
    List.countP_eq_zero.mpr fun l hl => by simp [htoken l hl]
  have hlength : front.length = depth := by
    have := congrArg List.length hfront
    simpa using this
  have hdepth := hwithin front (List.prefix_append front back)
  omega

/-- Derivation alone does not make a query: an operand is no condition, and both limits turn
texts away. -/
theorem derived_not_parsed :
    Refused "where .a" (.path ".a") ∧
      Refused (nested 65) (.binary (.compare .not) (.path ".a") (.path ".a")) ∧
      Refused (chained 513) (chain 513) :=
  ⟨refused_bare, refused_nested (by decide), refused_chained (by decide)⟩

end Query

end FieldQuery

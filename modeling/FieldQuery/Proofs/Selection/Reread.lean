/-
Queries on values that are written and read again.

Reading back changes leaves and nothing else, so the fields of both documents have the same paths
and every query fails on both with the same error or on neither.  What is selected from what is
read back is read back itself, so it has the same text if its floats are stable.

That leaves the condition.  It depends on the document through the orders that its comparisons
find, so a query accepts both documents or none where these orders are the same.  For values whose
floats are stable, `Tree.order?_reread_iff` tells the comparisons whose order is another one by the
value alone: they drift.  `run_reread` puts this together for every value that a JSON text stands
for, and says when there is nothing to be read back because the text is refused.

Not proved here: which orders change where a float is not stable.
-/
import FieldQuery.Proofs.Document.Reread
import FieldQuery.Proofs.Tree.Comparisons
import FieldQuery.Proofs.Value.Drift
import FieldQuery.Run
import Mathlib

namespace FieldQuery

open Document

/-! ### The condition

What stands at a path changes when the document is read back, and a literal does not.
So the left side of a comparison is always a value that is read back, and the right side
need not be; `drifts` is computed from the document before it is read back.
-/

namespace Tree

/-- What the value of the right side of a comparison becomes. -/
def rereadOperand (right : Tree) (b : Value) : Value :=
  match right with
  | .path _ => b.reread
  | _ => b

/-- Whether the two sides of a comparison have another order on what is read back. -/
def driftsBetween (d : Document) (left right : Tree) : Bool :=
  match left with
  | .path text =>
    match d.get? text, right.operand? d with
    | some a, some b => a.drifts b (right.rereadOperand b)
    | _, _ => false
  | _ => false

/-- Whether a comparison that decides on a condition has another order on what is read back. -/
def drifts (d : Document) (t : Tree) : Bool :=
  t.comparisons.any fun sides => driftsBetween d sides.1 sides.2

variable {d e : Document}

theorem operand?_reread (h : Reread d e) (right : Tree) :
    right.operand? e = (right.operand? d).map right.rereadOperand := by
  cases right with
  | path text => exact get?_reread h text
  | _ => rfl

theorem kept_operand (hstable : d.Stable) {right : Tree} (hright : right.Legible) {b : Value}
    (hb : right.operand? d = some b) : Value.Kept b (right.rereadOperand b) := by
  cases right with
  | path text => exact .inr ⟨rfl, hstable text b hb⟩
  | float x =>
      obtain rfl := Option.some.inj hb
      refine .inl ⟨rfl, fun y hy => ?_⟩
      obtain rfl := Value.float.inj hy
      exact hright.root
  | bool _ | quoted _ | integer _ =>
      obtain rfl := Option.some.inj hb
      exact .inl ⟨rfl, by simp⟩
  | sequence _ | filter _ | binary _ _ _ => simp [operand?] at hb

/-- **Reading back changes the order of two sides exactly if they drift.** -/
theorem order?_reread_iff (h : Reread d e) (hstable : d.Stable) (left : Tree) {right : Tree}
    (hright : right.Legible) :
    order? e left right = order? d left right ↔ driftsBetween d left right = false := by
  cases left with
  | path text =>
      rw [order?, order?, driftsBetween, get?_reread h, operand?_reread h]
      cases ha : d.get? text with
      | none => exact iff_of_true rfl rfl
      | some a =>
          cases hb : right.operand? d with
          | none => exact iff_of_true rfl rfl
          | some b =>
              exact Value.compare?_reread_iff (hstable text a ha) (kept_operand hstable hright hb)
  | _ => exact iff_of_true rfl rfl

theorem drifts_eq_false_iff (h : Reread d e) (hstable : d.Stable) {t : Tree} (ht : t.Legible) :
    t.drifts d = false ↔
      ∀ sides ∈ t.comparisons, order? e sides.1 sides.2 = order? d sides.1 sides.2 := by
  rw [drifts, List.any_eq_false]
  refine forall₂_congr fun sides hsides => ?_
  rw [Bool.not_eq_true, order?_reread_iff h hstable sides.1 (ht.comparisons sides hsides).2]

end Tree

/-! ### The selected fields

Reading back commutes with everything that is done to a value on its way into a
selection.
-/

theorem Merge.inner_reread (merge : Merge) (old : Option Value) :
    merge.inner (old.map Value.reread) = Value.rereadEntries (merge.inner old) := by
  cases merge with
  | overwrite => rfl
  | deep =>
      cases old with
      | none => rfl
      | some v =>
          cases v with
          | float x =>
              rw [Option.map_some, Value.reread]
              rcases Value.rereadFloat_eq x with h | ⟨i, h⟩ | ⟨y, h⟩ <;> rw [h] <;> rfl
          | null | bool _ | integer _ | string _ | array _ | object _ => rfl

/-- Values can be placed before or after they are read back. -/
theorem Fields.insertUnder_reread (merge : Merge) (v : Value) (names : List String)
    (fields : Fields Value) :
    insertUnder merge v.reread names (Value.rereadEntries fields) =
      Value.rereadEntries (insertUnder merge v names fields) := by
  induction names generalizing fields with
  | nil => rfl
  | cons name rest ih =>
      rw [Value.rereadEntries_eq_map, Value.rereadEntries_eq_map]
      cases rest with
      | nil => exact (map_alter Value.reread (fun _ => rfl) name fields).symm
      | cons next rest =>
          refine (map_alter Value.reread (fun old => ?_) name fields).symm
          rw [Merge.inner_reread, ih]
          rfl

/-! ### Stable selections

A selection is put together of values of the document and of objects around them, so its floats
are floats of the document.
-/

theorem Merge.stable_inner (merge : Merge) {old : Option Value} (h : ∀ v ∈ old, v.Stable) :
    Value.StableEntries (merge.inner old) := by
  cases merge with
  | overwrite => exact trivial
  | deep =>
      cases old with
      | none => exact trivial
      | some v =>
          have hv := h v rfl
          cases v with
          | object entries => exact hv
          | null | bool _ | integer _ | float _ | string _ | array _ => exact trivial

theorem Fields.stable_insertUnder (merge : Merge) {v : Value} (hv : v.Stable) (names : List String)
    {fields : Fields Value} (h : Value.StableEntries fields) :
    Value.StableEntries (insertUnder merge v names fields) := by
  induction names generalizing fields with
  | nil => exact h
  | cons name rest ih =>
      rw [Value.stableEntries_iff] at h ⊢
      cases rest with
      | nil => exact forall_mem_alter h name fun _ _ => hv
      | cons next rest =>
          exact forall_mem_alter h name fun _ hold => ih (merge.stable_inner hold)

namespace Query

variable {d e : Document}

theorem merged_reread (merge : Merge) (nodes : List Node) :
    merged merge (nodes.map Node.reread) = (merged merge nodes).reread := by
  refine congrArg Value.object ?_
  rw [List.foldl_map]
  show nodes.foldl _ (Value.rereadEntries []) = _
  refine List.foldl_hom Value.rereadEntries fun fields node => ?_
  rw [Node.value_reread, Node.segments_reread, Fields.insertUnder_reread]

theorem gather_reread (h : Reread d e) (merge : Merge) (selectors : List String) :
    gather merge selectors e = (gather merge selectors d).reread := by
  have hfound : selectors.filterMap e.find? = (selectors.filterMap d.find?).map Node.reread := by
    rw [List.map_filterMap]
    exact List.filterMap_congr fun path _ => find?_reread h path
  unfold gather
  rw [hfound]
  cases selectors.filterMap d.find? with
  | nil => rfl
  | cons node rest =>
      cases rest with
      | nil => exact Node.value_reread node
      | cons next more => exact merged_reread merge (node :: next :: more)

theorem stable_merged (merge : Merge) {nodes : List Node} (h : ∀ node ∈ nodes, node.value.Stable) :
    (merged merge nodes).Stable := by
  have hall : ∀ fields, Value.StableEntries fields → Value.StableEntries (nodes.foldl
      (fun fields node => Fields.insertUnder merge node.value node.segments fields) fields) := by
    induction nodes with
    | nil => exact fun _ hfields => hfields
    | cons node rest ih =>
        obtain ⟨hnode, hrest⟩ := List.forall_mem_cons.mp h
        exact fun fields hfields => ih hrest _ (Fields.stable_insertUnder merge hnode _ hfields)
  exact hall [] trivial

theorem stable_gather (hd : d.Stable) (merge : Merge) (selectors : List String) :
    (gather merge selectors d).Stable := by
  have hnodes : ∀ node ∈ selectors.filterMap d.find?, node.value.Stable := by
    intro node hnode
    obtain ⟨path, -, hpath⟩ := List.mem_filterMap.mp hnode
    exact hd path node.value (congrArg (Option.map Node.value) hpath)
  unfold gather
  split
  · rename_i node hone
    exact hnodes node (hone ▸ List.mem_cons_self)
  · exact stable_merged merge hnodes

/-! ### Whole queries

`RunsAlike` says what holds of both runs and under which condition each part does.  It
is stated for any second value, because what is read back from a text is a value in
canonical order and the value that is compared with it need not be one.
-/

/-- Whether a comparison in the condition of a query text comes out otherwise once the value is
read back. -/
def drifts (text : String) (v : Value) : Bool :=
  match parse text, Document.ofValue? v with
  | .ok q, some d => q.condition?.any (Tree.drifts d)
  | _, _ => false

/-- The same error, or nothing is selected, or what is selected has the same text. -/
def Alike : Except RunError Outcome → Except RunError Outcome → Prop
  | .error e, .error e' => e = e'
  | .ok .filtered, .ok .filtered => True
  | .ok (.selected u), .ok (.selected u') => ∀ layout, u.text layout = u'.text layout
  | _, _ => False

/-- Both runs stop with the same error, or only the condition decides what they give. -/
theorem run_reread_cases (merge : Merge) (text : String) (v : Value) :
    (∃ e, run merge text v = .error e ∧ run merge text v.reread = .error e) ∨
      ∃ q d d' u, parse text = .ok q ∧ Document.ofValue? v = some d ∧
        Document.ofValue? v.reread = some d' ∧
        run merge text v = .ok (if q.accepts d then .selected u else .filtered) ∧
        run merge text v.reread = .ok (if q.accepts d' then .selected u.reread else .filtered) ∧
        (v.Stable → u.Stable) := by
  have hobject := isSome_ofValue?_reread v
  unfold run evaluate
  cases hq : parse text with
  | error e => exact .inl ⟨.parse e, rfl, rfl⟩
  | ok q =>
      cases hd : Document.ofValue? v with
      | none =>
          rw [hd, Option.isSome_none, Option.isSome_eq_false_iff, Option.isNone_iff_eq_none]
            at hobject
          rw [hobject]
          exact .inl ⟨.notObject, rfl, rfl⟩
      | some d =>
          rw [hd, Option.isSome_some] at hobject
          obtain ⟨d', hd'⟩ := Option.isSome_iff_exists.mp hobject
          have h := reread_of_ofValue? hd hd'
          have hmissing : (q.selectors.find? fun path => !d'.contains path) =
              q.selectors.find? fun path => !d.contains path := by
            simp only [contains_reread h]
          rw [hd']
          dsimp only
          rw [select, select, hmissing, gather_reread h]
          cases q.selectors.find? fun path => !d.contains path with
          | some path => exact .inl ⟨.selection (.missing path), rfl, rfl⟩
          | none =>
              exact .inr ⟨q, d, d', _, rfl, rfl, rfl, rfl, rfl, fun hv =>
                stable_gather (stable_of_ofValue? hd hv) merge q.selectors⟩

/-- Whether the comparisons in the condition of a query text find their two sides in the same
order on both values. -/
def SameOrders (text : String) (v w : Value) : Prop :=
  ∀ q d e, parse text = .ok q → Document.ofValue? v = some d → Document.ofValue? w = some e →
    ∀ c ∈ q.condition?, ∀ sides ∈ c.comparisons,
      Tree.order? e sides.1 sides.2 = Tree.order? d sides.1 sides.2

/-- A query text drifts exactly if a comparison of its condition has another order. -/
theorem drifts_iff (text : String) {v : Value} (hv : v.Stable) :
    drifts text v = false ↔ SameOrders text v v.reread := by
  unfold drifts
  constructor
  · intro h q d e hq hd he c hc sides hsides
    rw [hq, hd] at h
    dsimp only at h
    rw [hc, Option.any_some, Tree.drifts_eq_false_iff (reread_of_ofValue? hd he)
      (stable_of_ofValue? hd hv) (legible_condition hq hc)] at h
    exact h sides hsides
  · intro h
    split
    · rename_i q d hq hd
      have hobject := isSome_ofValue?_reread v
      rw [hd, Option.isSome_some] at hobject
      obtain ⟨e, he⟩ := Option.isSome_iff_exists.mp hobject
      cases hc : q.condition? with
      | none => rfl
      | some c =>
          rw [Option.any_some, Tree.drifts_eq_false_iff (reread_of_ofValue? hd he)
            (stable_of_ofValue? hd hv) (legible_condition hq hc)]
          exact h q d e hq hd he c hc
    · rfl

/-- A query accepts alike where the comparisons of its condition have the same order. -/
theorem accepts_congr_order {q : Query} (h : ∀ c ∈ q.condition?, ∀ sides ∈ c.comparisons,
    Tree.order? e sides.1 sides.2 = Tree.order? d sides.1 sides.2) :
    q.accepts e = q.accepts d := by
  unfold accepts
  cases hc : q.condition? with
  | none => rfl
  | some c => exact Tree.holds_congr_order c (h c hc)

/-- How what a query text gives on a value and what it gives on another one belong together. -/
structure RunsAlike (merge : Merge) (text : String) (v w : Value) : Prop where
  /-- Both runs stop with the same error, or none does. -/
  error : ∀ e, run merge text v = .error e ↔ run merge text w = .error e
  /-- Both are filtered or none is, where the comparisons find the same orders. -/
  filtered : SameOrders text v w →
    (run merge text v = .ok .filtered ↔ run merge text w = .ok .filtered)
  /-- What is selected from both has the same texts, if its floats are stable. -/
  selected : ∀ u u', run merge text v = .ok (.selected u) → run merge text w = .ok (.selected u') →
    u.Stable → ∀ layout, u.text layout = u'.text layout
  /-- If the floats of the whole value are stable, drifting decides everything. -/
  stable : v.Stable → (drifts text v = false ↔ SameOrders text v w) ∧
    (drifts text v = false → Alike (run merge text v) (run merge text w))

theorem runsAlike_reread (merge : Merge) (text : String) (v : Value) :
    RunsAlike merge text v v.reread := by
  rcases run_reread_cases merge text v with
    ⟨e, hv, hw⟩ | ⟨q, d, d', u, hq, hd, hd', hv, hw, hstable⟩
  · refine ⟨?_, ?_, ?_, fun h => ⟨drifts_iff text h, ?_⟩⟩ <;> rw [hv, hw]
    · simp
    · simp
    · simp
    · exact fun _ => rfl
  · have hsame : ∀ u₁ u₂, run merge text v = .ok (.selected u₁) →
        run merge text v.reread = .ok (.selected u₂) → u₁.Stable →
          ∀ layout, u₁.text layout = u₂.text layout := by
      intro u₁ u₂ h₁ h₂ hu layout
      rw [hv] at h₁
      rw [hw] at h₂
      split at h₁ <;> simp only [Except.ok.injEq, Outcome.selected.injEq, reduceCtorEq] at h₁
      split at h₂ <;> simp only [Except.ok.injEq, Outcome.selected.injEq, reduceCtorEq] at h₂
      rw [← h₂, h₁, Value.text_reread hu]
    have haccepts : SameOrders text v v.reread → q.accepts d' = q.accepts d :=
      fun h => accepts_congr_order (h q d d' hq hd hd')
    refine ⟨?_, fun h => ?_, hsame, fun hv' => ⟨drifts_iff text hv', fun hdrifts => ?_⟩⟩
    · rw [hv, hw]
      simp
    · rw [hv, hw, haccepts h]
      split <;> simp
    · rw [hv, hw, haccepts ((drifts_iff text hv').mp hdrifts)]
      split
      · exact fun layout => (Value.text_reread (hstable hv') layout).symm
      · trivial

/-- Only the canonical form of the second value counts. -/
theorem RunsAlike.congr {merge : Merge} {text : String} {v w w' : Value}
    (h : RunsAlike merge text v w) (hw : w.canonical = w'.canonical) :
    RunsAlike merge text v w' := by
  have hrun := Value.run_canonical_congr hw merge text
  have horders : SameOrders text v w = SameOrders text v w' := by
    unfold SameOrders
    rw [Value.ofValue?_congr hw]
  obtain ⟨herror, hfiltered, hselected, hstable⟩ := h
  rw [hrun] at herror hfiltered hselected hstable
  rw [horders] at hfiltered hstable
  exact ⟨herror, hfiltered, hselected, hstable⟩

/--
**What is read back is filtered alike unless a comparison drifts.**  The compact text of the value
that a JSON text stands for is read again exactly if no digits of a float in it make one that is
too large.  A query text and a way to merge then give the same error on the value and on what is
read back.  They select from both or from none if the comparisons of the condition find the same
orders, and what they select from both has the same texts if its floats are stable.

If all floats of the value are stable, its text is always read again.  Then a comparison has
another order exactly if it drifts, and if the query text does not drift on the value, both runs
come out alike.
-/
theorem run_reread {source : String} {v : Value} (h : Value.parse? source = some v) :
    ((Value.parse? (v.text .compact)).isSome ↔ v.Legible) ∧ (v.Stable → v.Legible) ∧
      ∀ w, Value.parse? (v.text .compact) = some w → ∀ merge text, RunsAlike merge text v w := by
  obtain ⟨hdepth, -⟩ := Value.finite_of_parse? h
  have hcanonical : v.reread.canonical = v.canonical.reread.canonical := by
    rw [Value.canonical_reread, Value.canonical_reread, Value.canonical_canonical]
  rw [Value.parse?_text_eq_reread Json.Layout.blank_compact hdepth]
  refine ⟨by split <;> simp_all, Value.Stable.legible, fun w hw merge text => ?_⟩
  split at hw
  · obtain rfl := Option.some.inj hw
    exact (runsAlike_reread merge text v).congr hcanonical
  · simp at hw

/-- A whole float is compared with an integer and read back as one. -/
theorem run_reread_whole :
    ∃ v w, Value.parse? "\x7b\"a\":2.0,\"b\":[0.5]\x7d" = some v ∧
      Value.parse? (v.text .compact) = some w ∧ v.Stable ∧ drifts ".b where .a >= 2" v = false ∧
      Alike (run .deep ".b where .a >= 2" v) (run .deep ".b where .a >= 2" w) := by
  have htokens : Json.tokens? "\x7b\"a\":2.0,\"b\":[0.5]\x7d".toList =
      some [.beginObject, .scalar (.string "a"), .colon, .scalar (.float (.ofInt 2)), .comma,
        .scalar (.string "b"), .colon, .beginArray, .scalar (.float (.ofDecimal false 5 (-1))),
        .endArray, .endObject] := by decide +kernel
  have hv : Value.parse? "\x7b\"a\":2.0,\"b\":[0.5]\x7d" =
      some (.object [("a", .float (.ofInt 2)),
        ("b", .array [.float (.ofDecimal false 5 (-1))])]) := by
    rw [Value.parse?, Json.parse?, htokens]
    rfl
  have hwhole : (Double.ofInt 2).Stable := by decide +kernel
  have hhalf : (Double.ofDecimal false 5 (-1)).Stable := by decide +kernel
  have hstable : Value.Stable (.object [("a", .float (.ofInt 2)),
      ("b", .array [.float (.ofDecimal false 5 (-1))])]) := ⟨hwhole, ⟨hhalf, trivial⟩, trivial⟩
  have hdrifts : drifts ".b where .a >= 2" (.object [("a", .float (.ofInt 2)),
      ("b", .array [.float (.ofDecimal false 5 (-1))])]) = false := by cbv
  obtain ⟨hread, hlegible, hruns⟩ := run_reread hv
  obtain ⟨w, hw⟩ := Option.isSome_iff_exists.mp (hread.mpr (hlegible hstable))
  exact ⟨_, w, hv, hw, hstable, hdrifts,
    ((hruns w hw .deep ".b where .a >= 2").stable hstable).2 hdrifts⟩

/-- The float is less than 1.5, which is rounded toward zero beside the integer. -/
example : drifts ". where .a < 1.5" (.object [("a", .float (.ofInt 1))]) = true := by cbv

end Query

end FieldQuery

/-
Selecting several fields and sharing the objects on their way.

What is selected then is the document restricted to the selected paths: at a path and
below it the selection is the document, above a path it has objects, and elsewhere it
has nothing.  `Value.Restricts` says this of any two values, by what each list of keys
leads to.

One placement extends the restriction by one path (`Restricts.insertUnder`).  Whether
the path lies beside, above or below those that are there makes no difference to the
result but does to the proof: below one of them the value is there already, and above
one of them what was placed is overwritten by a value that contains it.

A restriction in order is determined by its set of paths (`Restricts.unique`).  The
order of the selectors and their repetitions are therefore lost, and `select_deep` says
both of a query.

Not claimed here: what the root selects beside other fields.  Its path is cut into one
empty piece, which is no key of the document.
-/
import FieldQuery.Proofs.Document.PlainKeys
import FieldQuery.Proofs.Selection.Placement

namespace FieldQuery

namespace Value

/-- The second value is the first one restricted to some paths: the same at the paths and below
them, an object above them and at the top, and nothing anywhere else. -/
structure Restricts (paths : List (List String)) (v r : Value) : Prop where
  below : ∀ keys, (∃ p ∈ paths, p <+: keys) → r.at? keys = (v.at? keys).map canonical
  above : ∀ keys, (∀ p ∈ paths, ¬p <+: keys) → (keys = [] ∨ ∃ p ∈ paths, keys <+: p) →
    ∃ fields, r.at? keys = some (.object fields)
  beside : ∀ keys, (∀ p ∈ paths, ¬p <+: keys) → keys ≠ [] → (∀ p ∈ paths, ¬keys <+: p) →
    r.at? keys = none

namespace Restricts

variable {paths others : List (List String)} {v r : Value}

/-- Only which paths there are matters. -/
theorem congr (h : Restricts paths v r) (hmem : ∀ p, p ∈ others ↔ p ∈ paths) :
    Restricts others v r := by
  refine ⟨?_, ?_, ?_⟩
  · rintro keys ⟨p, hp, hfront⟩
    exact h.below keys ⟨p, (hmem p).mp hp, hfront⟩
  · intro keys hnot habove
    refine h.above keys (fun p hp => hnot p ((hmem p).mpr hp)) (habove.imp_right ?_)
    rintro ⟨p, hp, hfront⟩
    exact ⟨p, (hmem p).mp hp, hfront⟩
  · intro keys hnot hne hbeside
    exact h.beside keys (fun p hp => hnot p ((hmem p).mpr hp)) hne
      fun p hp => hbeside p ((hmem p).mpr hp)

/-- Restrictions to the same paths are equal when they are in order. -/
theorem unique {r' : Value} (h : Restricts paths v r) (h' : Restricts paths v r')
    (hr : r.Ordered) (hr' : r'.Ordered) : r = r' := by
  refine eq_of_at? hr hr' fun keys => ?_
  by_cases hbelow : ∃ p ∈ paths, p <+: keys
  · exact .inl ((h.below keys hbelow).trans (h'.below keys hbelow).symm)
  have hnot : ∀ p ∈ paths, ¬p <+: keys := fun p hp hfront => hbelow ⟨p, hp, hfront⟩
  by_cases habove : keys = [] ∨ ∃ p ∈ paths, keys <+: p
  · exact .inr ⟨h.above keys hnot habove, h'.above keys hnot habove⟩
  · obtain ⟨hne, hfront⟩ := not_or.mp habove
    have hbeside : ∀ p ∈ paths, ¬keys <+: p := fun p hp hp' => hfront ⟨p, hp, hp'⟩
    exact .inl ((h.beside keys hnot hne hbeside).trans (h'.beside keys hnot hne hbeside).symm)

/-- With no paths nothing but the top is there. -/
theorem empty (v : Value) : Restricts [] v (.object []) := by
  refine ⟨by simp, ?_, ?_⟩
  · intro keys _ habove
    obtain rfl : keys = [] := by simpa using habove
    exact ⟨[], rfl⟩
  · intro keys _ hne _
    obtain ⟨key, rest, rfl⟩ := List.exists_cons_of_ne_nil hne
    rfl

variable {fields : Fields Value} {path : List String} {w : Value}

/-- A path below one that is there adds nothing. -/
theorem cons_of_below (h : Restricts paths v r) {p : List String} (hp : p ∈ paths)
    (hfront : p <+: path) : Restricts (path :: paths) v r := by
  refine ⟨?_, ?_, ?_⟩
  · rintro keys ⟨q, hq, hkeys⟩
    rcases List.mem_cons.mp hq with rfl | hq
    · exact h.below keys ⟨p, hp, hfront.trans hkeys⟩
    · exact h.below keys ⟨q, hq, hkeys⟩
  · intro keys hnot habove
    have hrest : ∀ q ∈ paths, ¬q <+: keys := fun q hq => hnot q (List.mem_cons_of_mem _ hq)
    refine h.above keys hrest (habove.imp_right ?_)
    rintro ⟨q, hq, hkeys⟩
    rcases List.mem_cons.mp hq with rfl | hq
    · -- both lie on the way down to the new path, and the old one is not the upper
      rcases List.prefix_or_prefix_of_prefix hfront hkeys with hupper | hlower
      · exact absurd hupper (hrest p hp)
      · exact ⟨p, hp, hlower⟩
    · exact ⟨q, hq, hkeys⟩
  · intro keys hnot hne hbeside
    exact h.beside keys (fun q hq => hnot q (List.mem_cons_of_mem _ hq)) hne
      fun q hq => hbeside q (List.mem_cons_of_mem _ hq)

/-- Placing what stands at a path extends the restriction by the path. -/
theorem insertUnder (h : Restricts paths v (.object fields))
    (hordered : (Value.object fields).Ordered) (hne : path ≠ []) (hw : v.at? path = some w) :
    Restricts (path :: paths) v
      (.object (Fields.insertUnder .deep w.canonical path fields)) := by
  have halong := Fields.ascendingAlong_of_ordered hordered path
  by_cases hcovered : ∃ p ∈ paths, p <+: path
  · have hthere := h.below path hcovered
    rw [hw] at hthere
    rw [Fields.insertUnder_self hordered hne hthere]
    obtain ⟨p, hp, hfront⟩ := hcovered
    exact h.cons_of_below hp hfront
  refine ⟨?_, ?_, ?_⟩
  · rintro keys ⟨p, hp, hkeys⟩
    by_cases hown : path <+: keys
    · obtain ⟨more, rfl⟩ := hown
      rw [Fields.at?_insertUnder_append halong hne, at?_append, hw, Option.bind_some,
        at?_canonical]
    · have hp : p ∈ paths := by
        rcases List.mem_cons.mp hp with rfl | hp
        · exact absurd hkeys hown
        · exact hp
      have habove : ¬keys <+: path := fun hup => hcovered ⟨p, hp, hkeys.trans hup⟩
      rw [Fields.at?_insertUnder_of_apart halong hown habove]
      exact h.below keys ⟨p, hp, hkeys⟩
  · intro keys hnot habove
    have hown : ¬path <+: keys := hnot path List.mem_cons_self
    by_cases hup : keys <+: path
    · refine Fields.exists_object_insertUnder hordered hup ?_
      rintro rfl
      exact hown List.prefix_rfl
    · rw [Fields.at?_insertUnder_of_apart halong hown hup]
      refine h.above keys (fun p hp => hnot p (List.mem_cons_of_mem _ hp)) (habove.imp_right ?_)
      rintro ⟨p, hp, hkeys⟩
      rcases List.mem_cons.mp hp with rfl | hp
      · exact absurd hkeys hup
      · exact ⟨p, hp, hkeys⟩
  · intro keys hnot hkeys hbeside
    rw [Fields.at?_insertUnder_of_apart halong (hnot path List.mem_cons_self)
      (hbeside path List.mem_cons_self)]
    exact h.beside keys (fun p hp => hnot p (List.mem_cons_of_mem _ hp)) hkeys
      fun p hp => hbeside p (List.mem_cons_of_mem _ hp)

/-- Placing nodes one after the other extends the restriction by all their paths. -/
theorem foldl_insertUnder {nodes : List Document.Node} (h : Restricts paths v (.object fields))
    (hordered : (Value.object fields).Ordered)
    (hnodes : ∀ node ∈ nodes, node.segments ≠ [] ∧
      ∃ u, v.at? node.segments = some u ∧ node.value = u.canonical) :
    ∃ placed, nodes.foldl
        (fun fields node => Fields.insertUnder .deep node.value node.segments fields) fields =
          placed ∧ (Value.object placed).Ordered ∧
        Restricts ((nodes.map Document.Node.segments).reverse ++ paths) v (.object placed) := by
  induction nodes generalizing fields paths with
  | nil => exact ⟨fields, rfl, hordered, h⟩
  | cons node rest ih =>
      obtain ⟨⟨hne, u, hu, hvalue⟩, hrest⟩ := List.forall_mem_cons.mp hnodes
      have hplaced := h.insertUnder hordered hne hu
      have hkept := Fields.ordered_insertUnder .deep (ordered_canonical u) node.segments hordered
      rw [List.foldl_cons, hvalue, List.map_cons, List.reverse_cons, List.append_assoc]
      exact ih hplaced hkept hrest

end Restricts

end Value

namespace Query

/-! ### What a query selects when every field is there

With all fields there no path is reported as missing, and what is left of a query is its
condition and the placing of the nodes.
-/

/-- Fields that are all there are put together, unless the condition does not hold. -/
theorem select_of_all_found {q : Query} {d : Document}
    (hfound : ∀ path ∈ q.selectors, d.contains path = true) (merge : Merge) :
    select merge q d =
      .ok (if q.accepts d then .selected (gather merge q.selectors d) else .filtered) := by
  have hnone : (q.selectors.find? fun path => !d.contains path) = none := by
    rw [List.find?_eq_none]
    intro path hpath
    simp [hfound path hpath]
  simp only [select, hnone]

theorem select_of_found {d : Document} {selectors : List String}
    (hfound : ∀ path ∈ selectors, d.contains path = true) (merge : Merge) :
    select merge ⟨selectors, none⟩ d = .ok (.selected (gather merge selectors d)) :=
  select_of_all_found hfound merge

/-- Two or more fields that are all there are placed one after the other. -/
theorem gather_of_found {d : Document} {selectors : List String} (htwo : 2 ≤ selectors.length)
    (hfound : ∀ path ∈ selectors, d.contains path = true) (merge : Merge) :
    gather merge selectors d = merged merge (selectors.filterMap d.find?) := by
  have hlength : (selectors.filterMap d.find?).length = selectors.length :=
    List.filterMap_length_eq_length.mpr hfound
  unfold gather
  split
  · rename_i node hsingle
    rw [hsingle, List.length_singleton] at hlength
    omega
  · rfl

section

variable {entries : List (String × Value)} {d : Document} {selectors : List String}

/-- What several fields select is in order and the document restricted to them. -/
theorem exists_select_deep (hd : Document.ofValue? (.object entries) = some d)
    (hplain : (Value.object entries).PlainKeys) (htwo : 2 ≤ selectors.length)
    (hroot : Path.root ∉ selectors) (hfound : ∀ path ∈ selectors, d.contains path = true) :
    ∃ fields, select .deep ⟨selectors, none⟩ d = .ok (.selected (.object fields)) ∧
      (Value.object fields).Ordered ∧
      Value.Restricts (selectors.map Path.segments) (.object entries) (.object fields) := by
  have hsegments : ∀ path ∈ selectors, ∀ node, d.find? path = some node →
      node.segments = Path.segments path ∧ node.segments ≠ [] ∧
        ∃ w, (Value.object entries).at? node.segments = some w ∧ node.value = w.canonical := by
    intro path hpath node hnode
    have hne : path ≠ Path.root := fun heq => hroot (heq ▸ hpath)
    obtain ⟨hpieces, -, hnodeSegments, hw⟩ := Document.at?_segments hd hplain hne hnode
    rw [hnodeSegments]
    exact ⟨rfl, hpieces, hw⟩
  have hnodes : ∀ node ∈ selectors.filterMap d.find?, node.segments ≠ [] ∧
      ∃ w, (Value.object entries).at? node.segments = some w ∧ node.value = w.canonical := by
    intro node hmem
    obtain ⟨path, hpath, hnode⟩ := List.mem_filterMap.mp hmem
    exact (hsegments path hpath node hnode).2
  obtain ⟨fields, hfields, hordered, hrestricts⟩ :=
    (Value.Restricts.empty (.object entries)).foldl_insertUnder Value.ordered_empty hnodes
  refine ⟨fields, ?_, hordered, hrestricts.congr fun p => ?_⟩
  · rw [select_of_found hfound, gather_of_found htwo hfound, merged, hfields]
  · rw [List.append_nil, List.mem_reverse, List.mem_map, List.mem_map]
    constructor
    · rintro ⟨path, hpath, rfl⟩
      obtain ⟨node, hnode⟩ := Option.isSome_iff_exists.mp (hfound path hpath)
      exact ⟨node, List.mem_filterMap.mpr ⟨path, hpath, hnode⟩,
        (hsegments path hpath node hnode).1⟩
    · rintro ⟨node, hmem, rfl⟩
      obtain ⟨path, hpath, hnode⟩ := List.mem_filterMap.mp hmem
      exact ⟨path, hpath, (hsegments path hpath node hnode).1.symm⟩

/--
**Several fields that share the objects on their way select the document restricted to them.**
All keys of the document are plain, the selectors are paths of the document, and there are at
least two of them, none the root's.  Each is the path of the keys that it is cut into, and what
is selected agrees with the document at and below these keys, has objects above them, and
nothing beside them.  It is the same for any list of at least two selectors with the same
members, so neither their order nor how often they are repeated matters.
-/
theorem select_deep (hd : Document.ofValue? (.object entries) = some d)
    (hplain : (Value.object entries).PlainKeys) (htwo : 2 ≤ selectors.length)
    (hroot : Path.root ∉ selectors) (hfound : ∀ path ∈ selectors, d.contains path = true) :
    (∀ path ∈ selectors, (Path.segments path).foldl Path.child Path.root = path ∧
      ((Value.object entries).at? (Path.segments path)).isSome) ∧
    ∃ fields, select .deep ⟨selectors, none⟩ d = .ok (.selected (.object fields)) ∧
      Value.Restricts (selectors.map Path.segments) (.object entries) (.object fields) ∧
      ∀ others : List String, 2 ≤ others.length → (∀ path, path ∈ others ↔ path ∈ selectors) →
        select .deep ⟨others, none⟩ d = .ok (.selected (.object fields)) := by
  constructor
  · intro path hpath
    obtain ⟨node, hnode⟩ := Option.isSome_iff_exists.mp (hfound path hpath)
    have hne : path ≠ Path.root := fun heq => hroot (heq ▸ hpath)
    obtain ⟨-, htext, -, w, hw, -⟩ := Document.at?_segments hd hplain hne hnode
    rw [hw]
    exact ⟨htext, rfl⟩
  · obtain ⟨fields, hselect, hordered, hrestricts⟩ :=
      exists_select_deep hd hplain htwo hroot hfound
    refine ⟨fields, hselect, hrestricts, ?_⟩
    intro others htwo' hsame
    obtain ⟨fields', hselect', hordered', hrestricts'⟩ :=
      exists_select_deep hd hplain htwo' (fun hmem => hroot ((hsame _).mp hmem))
        fun path hpath => hfound path ((hsame path).mp hpath)
    have hpaths : ∀ p, p ∈ others.map Path.segments ↔ p ∈ selectors.map Path.segments := by
      intro p
      simp only [List.mem_map, hsame]
    rw [hselect', (hrestricts.congr hpaths).unique hrestricts' hordered hordered']

end

/-- A field inside another one is selected together with it, before and after it. -/
theorem select_deep_nested :
    ∃ d fields, Document.ofValue? (.object [("a", .object [("b", .integer 1), ("c", .null)]),
        ("d", .bool true)]) = some d ∧
      select .deep ⟨[".a.b", ".a", ".a.b"], none⟩ d = .ok (.selected (.object fields)) ∧
      select .deep ⟨[".a", ".a.b"], none⟩ d = .ok (.selected (.object fields)) ∧
      (Value.object fields).at? ["a", "c"] = some .null ∧
      (Value.object fields).at? ["d"] = none := by
  have hplain : (Value.object [("a", .object [("b", .integer 1), ("c", .null)]),
      ("d", .bool true)]).PlainKeys := by
    simp [Value.PlainKeys, Value.PlainEntries, Path.Plain]
  obtain ⟨-, fields, hselect, hrestricts, hothers⟩ :=
    @select_deep _ _ [".a.b", ".a", ".a.b"] rfl hplain (by decide) (by decide) (by decide)
  refine ⟨_, fields, rfl, hselect, hothers _ (by decide) ?_, ?_, ?_⟩
  · intro path
    simp only [List.mem_cons, List.not_mem_nil, or_false]
    tauto
  · exact hrestricts.below ["a", "c"] ⟨["a"], by decide, by decide⟩
  · exact hrestricts.beside ["d"] (by decide) (by decide) (by decide)

end Query

end FieldQuery

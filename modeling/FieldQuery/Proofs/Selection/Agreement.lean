/-
What a query sees of a document.

A query names paths, and of the document it reads nothing else.  Two documents that have
the same at each of these paths, or both nothing, cannot be told apart by it, however
different they are elsewhere and however differently their nodes are numbered.

One thing could tell them apart and does not.  What is put together is placed under the
path that a node carries, not under the one that was asked for; but the index finds a
node under its own path, so that the two are the same (`map_filterMap_find?`).

The documents are taken apart nowhere below.  Everything goes through `Document.get?`
and `Document.find?`, which is why nothing is asked of the two documents but that they
agree.
-/
import FieldQuery.Proofs.Document.Arena
import FieldQuery.Run
import Mathlib

namespace FieldQuery

namespace Tree

mutual

/-- Every path in the tree. -/
def paths : Tree → List String
  | .path text => [text]
  | .sequence items => pathsAll items
  | .filter condition => paths condition
  | .binary _ left right => paths left ++ paths right
  | _ => []

/-- Every path in a list of trees. -/
def pathsAll : List Tree → List String
  | [] => []
  | t :: rest => paths t ++ pathsAll rest

end

theorem pathsAll_append (ts more : List Tree) :
    pathsAll (ts ++ more) = pathsAll ts ++ pathsAll more := by
  induction ts with
  | nil => rfl
  | cons t rest ih => rw [List.cons_append, pathsAll, ih, pathsAll, List.append_assoc]

theorem pathsAll_map_path (texts : List String) : pathsAll (texts.map path) = texts := by
  induction texts with
  | nil => rfl
  | cons text rest ih =>
      rw [List.map_cons, pathsAll, ih]
      rfl

end Tree

namespace Document

/-- Two documents that have the same at each of these paths. -/
def AgreeOn (paths : List String) (d e : Document) : Prop :=
  ∀ path ∈ paths, d.get? path = e.get? path

theorem AgreeOn.mono {paths fewer : List String} {d e : Document} (h : AgreeOn paths d e)
    (hsub : fewer ⊆ paths) : AgreeOn fewer d e :=
  fun path hpath => h path (hsub hpath)

end Document

open Document

/-! ### The condition

By the recursion of `holds`, with a second one for the alternatives of a list.  An
operand that is no path does not read the document at all.
-/

namespace Tree

theorem operand?_congr {d e : Document} (t : Tree) (h : AgreeOn t.paths d e) :
    t.operand? d = t.operand? e := by
  cases t with
  | path text => exact h text List.mem_cons_self
  | _ => rfl

theorem relates_congr {d e : Document} (relation : Relation) {left right : Tree}
    (hleft : AgreeOn left.paths d e) (hright : AgreeOn right.paths d e) :
    relates d relation left right = relates e relation left right := by
  cases left with
  | path text =>
      have htext : d.get? text = e.get? text := hleft text List.mem_cons_self
      rw [relates, relates, htext, operand?_congr right hright]
  | _ => rfl

mutual

/-- A condition reads the fields that it names. -/
theorem holds_congr {d e : Document} : ∀ t : Tree, AgreeOn t.paths d e → t.holds d = t.holds e
  | .binary op left right, h => by
      have hleft : AgreeOn left.paths d e := h.mono (List.subset_append_left _ _)
      have hright : AgreeOn right.paths d e := h.mono (List.subset_append_right _ _)
      cases op with
      | and =>
          unfold holds
          rw [holds_congr left hleft, holds_congr right hright]
      | or =>
          unfold holds
          rw [holds_congr left hleft, holds_congr right hright]
      | isIn =>
          cases right with
          | sequence items =>
              unfold holds
              exact holdsAny_congr items hright
          | _ => rfl
      | contains => rfl
      | compare relation =>
          unfold holds
          exact relates_congr relation hleft hright
  | .sequence _, _ | .path _, _ | .bool _, _ | .quoted _, _ | .integer _, _ | .float _, _
  | .filter _, _ => rfl

theorem holdsAny_congr {d e : Document} : ∀ ts : List Tree, AgreeOn (pathsAll ts) d e →
    holdsAny d ts = holdsAny e ts
  | [], _ => rfl
  | t :: rest, h => by
      unfold holdsAny
      rw [holds_congr t (h.mono (List.subset_append_left _ _)),
        holdsAny_congr rest (h.mono (List.subset_append_right _ _))]

end

end Tree

/-! ### The selected fields

A lookup answers with a node, and a node of one document is not one of the other: its
number and its children differ.  So lookups are compared by path and value only, and
these are all that placing uses.
-/

namespace Query

/-- The selected fields that a document has, each with its path. -/
def found (d : Document) (selectors : List String) : List (String × Value) :=
  selectors.filterMap fun path => (d.get? path).map (Prod.mk path)

theorem found_congr {d e : Document} {selectors : List String} (h : AgreeOn selectors d e) :
    found d selectors = found e selectors := by
  unfold found
  refine List.filterMap_congr fun path hpath => ?_
  rw [h path hpath]

/-- The paths and values of the nodes that are found. -/
theorem map_filterMap_find? (d : Document) (selectors : List String) :
    ((selectors.filterMap d.find?).map fun node => (node.path, node.value)) =
      found d selectors := by
  unfold found
  rw [List.map_filterMap]
  refine List.filterMap_congr fun path _ => ?_
  unfold Document.get?
  cases hnode : d.find? path with
  | none => rfl
  | some node => rw [Option.map_some, Option.map_some, Option.map_some, path_of_find? hnode]

/-- What is placed are the paths and values of the nodes. -/
theorem merged_eq (merge : Merge) (nodes : List Document.Node) :
    merged merge nodes = .object ((nodes.map fun node => (node.path, node.value)).foldl
      (fun fields field =>
        Fields.insertUnder merge field.2 (Path.segments field.1) fields) []) := by
  rw [List.foldl_map]
  rfl

theorem gather_congr {d e : Document} {selectors : List String} (h : AgreeOn selectors d e)
    (merge : Merge) : gather merge selectors d = gather merge selectors e := by
  have hfound : ((selectors.filterMap d.find?).map fun node => (node.path, node.value)) =
      (selectors.filterMap e.find?).map fun node => (node.path, node.value) := by
    rw [map_filterMap_find?, map_filterMap_find?, found_congr h]
  have hmerged : merged merge (selectors.filterMap d.find?) =
      merged merge (selectors.filterMap e.find?) := by
    rw [merged_eq, merged_eq, hfound]
  have hlength := congrArg List.length hfound
  unfold gather
  -- one node on the one side is one node on the other
  split
  · rename_i node hsingle
    rw [hsingle] at hfound
    obtain ⟨other, hother, hvalue⟩ := List.map_eq_singleton_iff.mp hfound.symm
    rw [hother]
    exact (congrArg Prod.snd hvalue).symm
  · rename_i hmany
    split
    · rename_i other hsingle
      rw [hsingle] at hfound
      obtain ⟨node, hnode, -⟩ := List.map_eq_singleton_iff.mp hfound
      exact absurd hnode (hmany node)
    · exact hmerged

/-! ### Whole queries

The paths in the tree of a query are its selectors and those in its condition.
-/

variable {d e : Document}

theorem accepts_congr {q : Query} (h : AgreeOn q.toTree.paths d e) :
    q.accepts d = q.accepts e := by
  obtain ⟨selectors, condition?⟩ := q
  cases condition? with
  | none => rfl
  | some condition =>
      refine Tree.holds_congr condition (h.mono ?_)
      show condition.paths ⊆ Tree.pathsAll (selectors.map Tree.path ++ [Tree.filter condition])
      rw [Tree.pathsAll_append]
      exact List.subset_append_of_subset_right _ (List.subset_append_left _ _)

theorem agreeOn_selectors {q : Query} (h : AgreeOn q.toTree.paths d e) :
    AgreeOn q.selectors d e := by
  refine h.mono ?_
  show q.selectors ⊆ Tree.pathsAll (q.selectors.map Tree.path ++ _)
  rw [Tree.pathsAll_append, Tree.pathsAll_map_path]
  exact List.subset_append_left _ _

/-- A query gives the same on documents that agree on the paths in its tree. -/
theorem select_congr {q : Query} (h : AgreeOn q.toTree.paths d e) (merge : Merge) :
    q.select merge d = q.select merge e := by
  have hselectors := agreeOn_selectors h
  have hmissing : (q.selectors.find? fun path => !d.contains path) =
      q.selectors.find? fun path => !e.contains path := by
    refine List.find?_congr fun path hpath => ?_
    rw [contains_eq_isSome, contains_eq_isSome, hselectors path hpath]
  unfold select
  rw [hmissing, accepts_congr h, gather_congr hselectors merge]

/--
**A query sees only the fields that it names.**  Two objects whose documents have the same value
at every path in the tree of the query, selectors and condition, or both no value there, give
the same: the same error, or both are filtered, or the same value is selected.
-/
theorem run_congr {text : String} {q : Query} (hq : parse text = .ok q)
    {entries others : List (String × Value)}
    (hd : Document.ofValue? (.object entries) = some d)
    (he : Document.ofValue? (.object others) = some e)
    (h : AgreeOn q.toTree.paths d e) (merge : Merge) :
    run merge text (.object entries) = run merge text (.object others) := by
  unfold run evaluate
  rw [hq, hd, he]
  dsimp only
  rw [select_congr h merge]

/-- The one document has a field below the empty key, where the other has it below the root, and
each has a field that the query does not name. -/
theorem run_congr_emptyKey :
    run .overwrite ".a where .a < 2" (.object [("", .object [("a", .integer 1)]), ("a", .null)]) =
      run .overwrite ".a where .a < 2" (.object [("a", .integer 1), ("b", .bool true)]) := by
  have hparse : parse ".a where .a < 2" =
      .ok ⟨[".a"], some (.binary (.compare .lt) (.path ".a") (.integer 2))⟩ := by
    cbv
  refine run_congr hparse rfl rfl ?_ .overwrite
  intro path hpath
  have ha : path = ".a" := by
    simpa [toTree, Tree.paths, Tree.pathsAll] using hpath
  rw [ha]
  rfl

end Query

end FieldQuery

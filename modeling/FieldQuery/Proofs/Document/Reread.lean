/-
Documents of values that are written and read again.

Reading back changes the values of leaves and nothing else.  So the document of what is
read back has the names, the paths and the shape of the document of the value, and what
stands at a path is read back too, `find?_reread`.

A leaf can change its kind on the way, since a float without a fraction may come back as
another number, but it does not become an object.  That is all that keeps the shape.
What the values are afterwards is not looked at here.
-/
import FieldQuery.Proofs.Document.Lookup
import FieldQuery.Proofs.Value.Reread

namespace FieldQuery

namespace Document

namespace Node

/-! ### Trees

Reading back goes through a tree node by node, and it commutes with everything a
document does with one: making it, listing its nodes, taking its value.
-/

mutual

/-- The node with its leaves as they are read back. -/
def reread : Node → Node
  | .leaf name path v => .leaf name path v.reread
  | .branch name path children => .branch name path (rereadAll children)

/-- The nodes of a list with their leaves as they are read back. -/
def rereadAll : List Node → List Node
  | [] => []
  | node :: rest => node.reread :: rereadAll rest

end

@[simp] theorem name_reread (node : Node) : node.reread.name = node.name := by
  cases node <;> rfl

@[simp] theorem path_reread (node : Node) : node.reread.path = node.path := by
  cases node <;> rfl

@[simp] theorem segments_reread (node : Node) : node.reread.segments = node.segments := by
  rw [segments, path_reread, segments]

theorem ofValue_rereadFloat (name path : String) (x : Double) :
    ofValue name path (Value.rereadFloat x) = .leaf name path (Value.rereadFloat x) := by
  rcases Value.rereadFloat_eq x with h | ⟨i, h⟩ | ⟨y, h⟩ <;> rw [h] <;> rfl

mutual

/-- What is read back has the node of the value, read back. -/
theorem ofValue_reread (name path : String) : ∀ v : Value,
    ofValue name path v.reread = (ofValue name path v).reread
  | .null | .bool _ | .integer _ | .string _ | .array _ => rfl
  | .float x => ofValue_rereadFloat name path x
  | .object entries => by
      rw [Value.reread, ofValue, ofValue, reread, ofEntries_rereadEntries path entries]

theorem ofEntries_rereadEntries (parent : String) : ∀ entries,
    ofEntries parent (Value.rereadEntries entries) = rereadAll (ofEntries parent entries)
  | [] => rfl
  | (key, v) :: rest => by
      rw [Value.rereadEntries, ofEntries, ofEntries, rereadAll, ofValue_reread key _ v,
        ofEntries_rereadEntries parent rest]

end

mutual

/-- What is read back stands for the value, read back. -/
theorem value_reread : ∀ node : Node, node.reread.value = node.value.reread
  | .leaf _ _ _ => rfl
  | .branch _ _ children => congrArg Value.object (entries_rereadAll children)

theorem entries_rereadAll : ∀ nodes, entries (rereadAll nodes) = Value.rereadEntries (entries nodes)
  | [] => rfl
  | node :: rest => by
      rw [rereadAll, entries, entries, Value.rereadEntries, name_reread, value_reread node,
        entries_rereadAll rest]

end

mutual

theorem preorder_reread : ∀ node : Node, node.reread.preorder = node.preorder.map reread
  | .leaf _ _ _ => rfl
  | .branch name path children => by
      rw [reread, preorder, preorder, List.map_cons, reread, preorderAll_rereadAll children]

theorem preorderAll_rereadAll : ∀ nodes,
    preorderAll (rereadAll nodes) = (preorderAll nodes).map reread
  | [] => rfl
  | node :: rest => by
      rw [rereadAll, preorderAll, preorderAll, List.map_append, preorder_reread node,
        preorderAll_rereadAll rest]

end

/-! ### Stable values

A value all of whose floats are stable passes that on to every value inside it.
-/

mutual

/-- Every float below a stable value is stable. -/
theorem stable_of_mem_preorder (name path : String) : ∀ (v : Value), v.Stable →
    ∀ node ∈ (ofValue name path v).preorder, node.value.Stable
  | .object entries, h, node, hnode => by
      rcases List.mem_cons.mp hnode with rfl | hbelow
      · rw [← ofValue, value_ofValue]
        exact h
      · exact stable_of_mem_preorderAll path entries h node hbelow
  | .null, h, node, hnode | .bool _, h, node, hnode | .integer _, h, node, hnode
  | .float _, h, node, hnode | .string _, h, node, hnode | .array _, h, node, hnode => by
      obtain rfl := List.mem_singleton.mp hnode
      exact h

theorem stable_of_mem_preorderAll (parent : String) : ∀ (entries : List (String × Value)),
    Value.StableEntries entries → ∀ node ∈ preorderAll (ofEntries parent entries),
      node.value.Stable
  | [], _, _, hnode => absurd hnode List.not_mem_nil
  | (key, v) :: rest, h, node, hnode => by
      rcases List.mem_append.mp hnode with hfirst | hrest
      · exact stable_of_mem_preorder key _ v h.1 node hfirst
      · exact stable_of_mem_preorderAll parent rest h.2 node hrest

end

end Node

end Document

namespace Document

variable {v : Value} {d e : Document}

/-- Whether one document is that of what is read back for the other. -/
def Reread (d e : Document) : Prop := e.root = d.root.reread

theorem reread_of_ofValue? (hd : ofValue? v = some d) (he : ofValue? v.reread = some e) :
    Reread d e := by
  rw [Reread, root_eq hd, root_eq he, Value.canonical_reread, Node.ofValue_reread]

/-- What is read back has a document exactly if the value has one. -/
theorem isSome_ofValue?_reread (v : Value) : (ofValue? v.reread).isSome = (ofValue? v).isSome := by
  cases v with
  | float x =>
      rw [Value.reread]
      rcases Value.rereadFloat_eq x with h | ⟨i, h⟩ | ⟨y, h⟩ <;> rw [h] <;> rfl
  | null | bool _ | integer _ | string _ | array _ | object _ => rfl

/-- **What stands at a path is read back.** -/
theorem find?_reread (h : Reread d e) (path : String) :
    e.find? path = (d.find? path).map Node.reread := by
  rw [find?_eq, find?_eq, h, Node.preorder_reread, List.find?_map]
  simp only [Function.comp_def, Node.path_reread]

theorem get?_reread (h : Reread d e) (path : String) :
    e.get? path = (d.get? path).map Value.reread := by
  rw [get?, get?, find?_reread h, Option.map_map, Option.map_map]
  exact congrArg (Option.map · (d.find? path)) (funext Node.value_reread)

theorem contains_reread (h : Reread d e) (path : String) : e.contains path = d.contains path := by
  rw [contains_eq_isSome, contains_eq_isSome, get?_reread h, Option.isSome_map]

/-- Whether everything that stands at a path is stable. -/
def Stable (d : Document) : Prop := ∀ path w, d.get? path = some w → w.Stable

/-- The document of a stable value is stable. -/
theorem stable_of_ofValue? (hd : ofValue? v = some d) (hv : v.Stable) : d.Stable := by
  intro path w hw
  obtain ⟨node, hnode, rfl⟩ := Option.map_eq_some_iff.mp hw
  rw [find?_eq, root_eq hd] at hnode
  exact Node.stable_of_mem_preorder _ _ _ (Value.stable_canonical v hv) node
    (List.mem_of_find?_eq_some hnode)

end Document

end FieldQuery

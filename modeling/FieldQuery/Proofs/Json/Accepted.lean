/-
What the reader of JSON text accepts.

The grammar builds a value from its parts, and the reader goes through the tokens once
and keeps what it has begun on a stack.  Two facts lead from one to the other.

  * The tokens of a value deliver it, in whatever containers it is expected, so long as
    there is room for those that it opens itself: `Derives.run`.  Between two parts of a
    container the reader expects a comma or the end and holds the parts that came before.
  * What is still to come after a state follows the grammar: the rest of the parts of every
    container that is open, and its end.  `Leads` says this of a state, the tokens ahead and
    the value at the end.  It holds at the end, where nothing is ahead, and `leads_of_step`
    carries it back over one token.

What makes the second enough is that at the start no container is open, so everything is
still to come, and `Leads` then is the grammar.  The depth needs no invariant of its
own: a container is begun only where there is room, and what stands inside it has one
less.
-/
import FieldQuery.Proofs.Fields
import FieldQuery.Proofs.Json.Reads

namespace FieldQuery.Json

/-! ### The tokens behind the first part

A list of parts is a first part and the others, each behind a comma.  So the reader has the same
thing ahead of it after the first part as after any other. -/

/-- Parts that each stand behind a comma. -/
def following (parts : List (List Token)) : List Token := parts.flatMap (.comma :: ·)

theorem intercalate_comma (part : List Token) (parts : List (List Token)) :
    List.intercalate [.comma] (part :: parts) = part ++ following parts := by
  induction parts generalizing part with
  | nil => rw [List.intercalate_singleton, following, List.flatMap_nil, List.append_nil]
  | cons next more ih =>
      rw [List.intercalate_cons_cons, ih, List.append_assoc]
      rfl

theorem enclosed_cons (opening closing : Token) (part : List Token) (parts : List (List Token)) :
    enclosed opening closing (part :: parts) =
      opening :: (part ++ (following parts ++ [closing])) := by
  rw [enclosed, intercalate_comma, List.cons_append, List.append_assoc]

/-! ### Tokens that are apart

Two scalars side by side would be read as one, so a text is found to have the tokens
that it was spelled with only if that never happens.  In a derivation a mark stands
between any two.
-/

theorem Apart.cons_mark {mark : Token} (hmark : ¬mark.IsScalar) {toks : List Token}
    (h : Apart toks) : Apart (mark :: toks) :=
  List.isChain_cons.mpr ⟨fun _ _ hscalar => absurd hscalar hmark, h⟩

theorem Apart.append_mark {mark : Token} (hmark : ¬mark.IsScalar) {toks more : List Token}
    (h : Apart toks) (hmore : Apart (mark :: more)) : Apart (toks ++ mark :: more) := by
  refine List.isChain_append.mpr ⟨h, hmore, fun a _ b hb _ => ?_⟩
  obtain rfl := Option.some.inj hb
  exact hmark

theorem apart_following {closing : Token} (hclosing : ¬closing.IsScalar)
    {parts : List (List Token)} (h : ∀ part ∈ parts, Apart part) :
    ∃ mark more, following parts ++ [closing] = mark :: more ∧ ¬mark.IsScalar ∧
      Apart (mark :: more) := by
  induction parts with
  | nil => exact ⟨closing, [], rfl, hclosing, List.isChain_singleton closing⟩
  | cons part parts ih =>
      obtain ⟨hpart, hparts⟩ := List.forall_mem_cons.mp h
      obtain ⟨mark, more, heq, hmark, hmore⟩ := ih hparts
      refine ⟨.comma, part ++ mark :: more, ?_, id, (hpart.append_mark hmark hmore).cons_mark id⟩
      rw [← heq, ← List.append_assoc]
      rfl

theorem apart_enclosed {opening closing : Token} (hopening : ¬opening.IsScalar)
    (hclosing : ¬closing.IsScalar) {parts : List (List Token)} (h : ∀ part ∈ parts, Apart part) :
    Apart (enclosed opening closing parts) := by
  cases parts with
  | nil => exact Apart.cons_mark hopening (List.isChain_singleton closing)
  | cons part parts =>
      obtain ⟨hpart, hparts⟩ := List.forall_mem_cons.mp h
      obtain ⟨mark, more, heq, hmark, hmore⟩ := apart_following hclosing hparts
      rw [enclosed_cons, heq]
      exact (hpart.append_mark hmark hmore).cons_mark hopening

/-- A value never has two scalars side by side. -/
theorem Derives.apart {n : Nat} {toks : List Token} {j : Json} (h : Derives n toks j) :
    Apart toks := by
  induction h with
  | scalar s => exact List.isChain_singleton _
  | array h ih =>
      refine apart_enclosed id id fun part hpart => ?_
      obtain ⟨item, hitem, rfl⟩ := List.mem_map.mp hpart
      exact ih item hitem
  | object h ih =>
      refine apart_enclosed id id fun part hpart => ?_
      obtain ⟨entry, hentry, rfl⟩ := List.mem_map.mp hpart
      have hvalue : Apart (.colon :: entry.2.1) := (ih entry hentry).cons_mark id
      exact Apart.append_mark id (List.isChain_singleton (.scalar (.string entry.1))) hvalue

namespace State

/-! ### Runs of the reader

Reading the tokens is folding one step over them, and a run over two stretches is a run
over one and then the other.
-/

/-- The state after some tokens. -/
def run (toks : List Token) (s : State) : Option State := toks.foldlM step s

theorem run_cons (token : Token) (toks : List Token) (s : State) :
    run (token :: toks) s = (step s token).bind (run toks) := List.foldlM_cons

theorem run_append (toks more : List Token) (s : State) :
    run (toks ++ more) s = (run toks s).bind (run more) := List.foldlM_append

theorem run_singleton (token : Token) (s : State) : run [token] s = step s token := by
  rw [run_cons]
  exact Option.bind_fun_some _

/-- A container can begin while there is room for one more. -/
theorem begin_of_lt {containers : List Container} (h : containers.length < maxDepth)
    (expected : Expected) (container : Container) :
    begin expected container containers = some (.reading expected (container :: containers)) :=
  if_pos h

/-- A key and a colon lead to the value of the entry. -/
theorem run_entryTokens {expected : Expected} (h : expected = .key ∨ expected = .keyOrEnd)
    (key : String) (toks : List Token) (fields : Fields Json) (outer : List Container) :
    run (entryTokens key toks) (.reading expected (.object fields :: outer)) =
      run toks (.reading .value (.entry fields key :: outer)) := by
  rcases h with rfl | rfl <;> rfl

/-! ### Values are delivered

This direction follows the grammar: a value delivers itself if its parts do. -/

/-- Whether tokens deliver a value wherever there is room for so many containers. -/
def Delivers (n : Nat) (toks : List Token) (j : Json) : Prop :=
  ∀ containers, containers.length + n ≤ maxDepth →
    run toks (.reading .value containers) = deliver j containers

variable {n : Nat}

/-- The first item of an array may begin where the array may also end. -/
theorem Delivers.run_valueOrEnd {toks : List Token} {j : Json} (h : Derives n toks j)
    (hdelivers : Delivers n toks j) {containers : List Container}
    (hroom : containers.length + n ≤ maxDepth) :
    run toks (.reading .valueOrEnd containers) = deliver j containers := by
  rw [← hdelivers containers hroom]
  cases h <;> rfl

/-- The items of an array are added to those that came before. -/
theorem run_items {parts : List (List Token × Json)} (h : ∀ part ∈ parts, Delivers n part.1 part.2)
    (items : List Json) {outer : List Container} (hroom : outer.length + 1 + n ≤ maxDepth) :
    run (following (parts.map Prod.fst)) (.reading .commaOrEnd (.array items :: outer)) =
      some (.reading .commaOrEnd (.array ((parts.map Prod.snd).reverse ++ items) :: outer)) := by
  induction parts generalizing items with
  | nil => rfl
  | cons part parts ih =>
      obtain ⟨hpart, hparts⟩ := List.forall_mem_cons.mp h
      show run ((.comma :: part.1) ++ following (parts.map Prod.fst)) _ = _
      rw [run_append, run_cons]
      show (run part.1 (.reading .value (.array items :: outer))).bind _ = _
      rw [hpart (.array items :: outer) hroom]
      show run _ (.reading .commaOrEnd (.array (part.2 :: items) :: outer)) = _
      rw [ih hparts, List.map_cons, List.reverse_cons, List.append_assoc, List.singleton_append]

/-- The entries of an object are put in, one after the other. -/
theorem run_entries {parts : List (String × List Token × Json)}
    (h : ∀ part ∈ parts, Delivers n part.2.1 part.2.2) (fields : Fields Json)
    {outer : List Container} (hroom : outer.length + 1 + n ≤ maxDepth) :
    run (following (parts.map fun part => entryTokens part.1 part.2.1))
        (.reading .commaOrEnd (.object fields :: outer)) =
      some (.reading .commaOrEnd
        (.object (Fields.insertAll (parts.map fun part => (part.1, part.2.2)) fields) ::
          outer)) := by
  induction parts generalizing fields with
  | nil => rfl
  | cons part parts ih =>
      obtain ⟨hpart, hparts⟩ := List.forall_mem_cons.mp h
      show run ((.comma :: entryTokens part.1 part.2.1) ++ following _) _ = _
      rw [run_append, run_cons]
      show (run (entryTokens part.1 part.2.1) (.reading .key (.object fields :: outer))).bind _ = _
      rw [run_entryTokens (.inl rfl), hpart (.entry fields part.1 :: outer) hroom]
      exact ih hparts (Fields.insert part.1 part.2.2 fields)

theorem delivers_array {parts : List (List Token × Json)}
    (h : ∀ part ∈ parts, Derives n part.1 part.2)
    (hdelivers : ∀ part ∈ parts, Delivers n part.1 part.2) :
    Delivers (n + 1) (enclosed .beginArray .endArray (parts.map Prod.fst))
      (.array (parts.map Prod.snd)) := by
  intro containers hroom
  have hbegin : begin .valueOrEnd (.array []) containers = some _ := begin_of_lt (by omega) _ _
  cases parts with
  | nil =>
      show (begin .valueOrEnd (.array []) containers).bind (run [.endArray]) = _
      rw [hbegin, Option.bind_some, run_singleton]
      rfl
  | cons part parts =>
      obtain ⟨hpart, hparts⟩ := List.forall_mem_cons.mp hdelivers
      have hinner : (Container.array [] :: containers).length + n ≤ maxDepth := by
        rw [List.length_cons]
        omega
      rw [List.map_cons, enclosed_cons, run_cons]
      show (begin .valueOrEnd (.array []) containers).bind _ = _
      rw [hbegin, Option.bind_some, run_append,
        hpart.run_valueOrEnd (h part List.mem_cons_self) hinner]
      show run _ (.reading .commaOrEnd (.array [part.2] :: containers)) = _
      rw [run_append, run_items hparts [part.2] hinner, Option.bind_some, run_singleton]
      show deliver (.array ((parts.map Prod.snd).reverse ++ [part.2]).reverse) containers = _
      rw [List.reverse_append, List.reverse_reverse]
      rfl

theorem delivers_object {parts : List (String × List Token × Json)}
    (hdelivers : ∀ part ∈ parts, Delivers n part.2.1 part.2.2) :
    Delivers (n + 1)
      (enclosed .beginObject .endObject (parts.map fun part => entryTokens part.1 part.2.1))
      (.object (Fields.ofList (parts.map fun part => (part.1, part.2.2)))) := by
  intro containers hroom
  have hbegin : begin .keyOrEnd (.object []) containers = some _ := begin_of_lt (by omega) _ _
  cases parts with
  | nil =>
      show (begin .keyOrEnd (.object []) containers).bind (run [.endObject]) = _
      rw [hbegin, Option.bind_some, run_singleton]
      rfl
  | cons part parts =>
      obtain ⟨hpart, hparts⟩ := List.forall_mem_cons.mp hdelivers
      have hinner : containers.length + 1 + n ≤ maxDepth := by omega
      rw [List.map_cons, enclosed_cons, run_cons]
      show (begin .keyOrEnd (.object []) containers).bind _ = _
      rw [hbegin, Option.bind_some, run_append, run_entryTokens (.inr rfl),
        hpart (.entry [] part.1 :: containers) hinner]
      show run _ (.reading .commaOrEnd (.object [(part.1, part.2.2)] :: containers)) = _
      rw [run_append, run_entries hparts _ hinner, Option.bind_some, run_singleton,
        ← Fields.insertAll_nil]
      rfl

/-- **The tokens of a value deliver it.** -/
theorem delivers_of_derives {toks : List Token} {j : Json} (h : Derives n toks j) :
    Delivers n toks j := by
  induction h with
  | scalar s => exact fun containers _ => run_singleton (.scalar s) (.reading .value containers)
  | array h ih => exact delivers_array h ih
  | object h ih => exact delivers_object ih

/-! ### Runs follow the grammar

This direction follows the run, from its end back to its start. -/

/-- The tokens ahead of a state and the value at the end, as the grammar has them. -/
inductive Leads : State → List Token → Json → Prop where
  | finished (j : Json) : Leads (.finished j) [] j
  | value {containers : List Container} {part rest : List Token} {v j : Json} {s : State}
      (hpart : Derives (maxDepth - containers.length) part v)
      (hs : deliver v containers = some s) (hrest : Leads s rest j) :
      Leads (.reading .value containers) (part ++ rest) j
  | noItem {items : List Json} {outer : List Container} {rest : List Token} {j : Json} {s : State}
      (hs : deliver (.array items.reverse) outer = some s) (hrest : Leads s rest j) :
      Leads (.reading .valueOrEnd (.array items :: outer)) (.endArray :: rest) j
  | firstItem {containers : List Container} {toks : List Token} {j : Json}
      (h : Leads (.reading .value containers) toks j) :
      Leads (.reading .valueOrEnd containers) toks j
  | items {items : List Json} {outer : List Container} {parts : List (List Token × Json)}
      {rest : List Token} {j : Json} {s : State}
      (hparts : ∀ part ∈ parts, Derives (maxDepth - (outer.length + 1)) part.1 part.2)
      (hs : deliver (.array (items.reverse ++ parts.map Prod.snd)) outer = some s)
      (hrest : Leads s rest j) :
      Leads (.reading .commaOrEnd (.array items :: outer))
        (following (parts.map Prod.fst) ++ .endArray :: rest) j
  | noEntry {fields : Fields Json} {outer : List Container} {rest : List Token} {j : Json}
      {s : State} (hs : deliver (.object fields) outer = some s) (hrest : Leads s rest j) :
      Leads (.reading .keyOrEnd (.object fields :: outer)) (.endObject :: rest) j
  | firstEntry {containers : List Container} {toks : List Token} {j : Json}
      (h : Leads (.reading .key containers) toks j) :
      Leads (.reading .keyOrEnd containers) toks j
  | key {fields : Fields Json} {outer : List Container} {key : String} {toks : List Token}
      {j : Json} (h : Leads (.reading .colon (.entry fields key :: outer)) toks j) :
      Leads (.reading .key (.object fields :: outer)) (.scalar (.string key) :: toks) j
  | colon {containers : List Container} {toks : List Token} {j : Json}
      (h : Leads (.reading .value containers) toks j) :
      Leads (.reading .colon containers) (.colon :: toks) j
  | entries {fields : Fields Json} {outer : List Container}
      {parts : List (String × List Token × Json)} {rest : List Token} {j : Json} {s : State}
      (hparts : ∀ part ∈ parts, Derives (maxDepth - (outer.length + 1)) part.2.1 part.2.2)
      (hs : deliver (.object
        (Fields.insertAll (parts.map fun part => (part.1, part.2.2)) fields)) outer = some s)
      (hrest : Leads s rest j) :
      Leads (.reading .commaOrEnd (.object fields :: outer))
        (following (parts.map fun part => entryTokens part.1 part.2.1) ++ .endObject :: rest) j

variable {containers outer : List Container} {toks : List Token} {j : Json}

/-- An item and what follows it are a list of items and the end of their array. -/
theorem Leads.exists_items {items : List Json}
    (h : Leads (.reading .value (.array items :: outer)) toks j) :
    ∃ first parts rest s,
      toks = first.1 ++ (following (parts.map Prod.fst) ++ .endArray :: rest) ∧
        (∀ part ∈ first :: parts, Derives (maxDepth - (outer.length + 1)) part.1 part.2) ∧
          deliver (.array (items.reverse ++ (first :: parts).map Prod.snd)) outer = some s ∧
            Leads s rest j := by
  cases h with
  | @value _ part _ v _ _ hpart hs hrest =>
      obtain rfl := Option.some.inj hs
      cases hrest with
      | @items _ _ parts rest _ s hparts hs hrest =>
          rw [List.reverse_cons, List.append_assoc] at hs
          refine ⟨(part, v), parts, rest, s, rfl, ?_, hs, hrest⟩
          exact List.forall_mem_cons.mpr ⟨hpart, hparts⟩

/-- An entry and what follows it are a list of entries and the end of their object. -/
theorem Leads.exists_entries {fields : Fields Json}
    (h : Leads (.reading .key (.object fields :: outer)) toks j) :
    ∃ (first : String × List Token × Json) (parts : List (String × List Token × Json)), ∃ rest s,
      toks = entryTokens first.1 first.2.1 ++
          (following (parts.map fun part => entryTokens part.1 part.2.1) ++ .endObject :: rest) ∧
        (∀ part ∈ first :: parts, Derives (maxDepth - (outer.length + 1)) part.2.1 part.2.2) ∧
          deliver (.object (Fields.insertAll
            ((first :: parts).map fun part => (part.1, part.2.2)) fields)) outer = some s ∧
            Leads s rest j := by
  cases h with
  | @key _ _ key _ _ h =>
    cases h with
    | colon h =>
      cases h with
      | @value _ part _ v _ _ hpart hs hrest =>
          obtain rfl := Option.some.inj hs
          cases hrest with
          | @entries _ _ parts rest _ s hparts hs hrest =>
              refine ⟨(key, part, v), parts, rest, s, rfl, ?_, hs, hrest⟩
              exact List.forall_mem_cons.mpr ⟨hpart, hparts⟩

/-- Inside a container that begins there is room for one container less. -/
theorem room_of_lt (h : containers.length < maxDepth) :
    maxDepth - containers.length = maxDepth - (containers.length + 1) + 1 := by
  omega

theorem derives_emptyArray (n : Nat) : Derives (n + 1) [.beginArray, .endArray] (.array []) :=
  .array fun _ hpart => absurd hpart List.not_mem_nil

theorem derives_emptyObject (n : Nat) : Derives (n + 1) [.beginObject, .endObject] (.object []) :=
  .object fun _ hpart => absurd hpart List.not_mem_nil

theorem leads_beginArray (hroom : containers.length < maxDepth)
    (h : Leads (.reading .valueOrEnd (.array [] :: containers)) toks j) :
    Leads (.reading .value containers) (.beginArray :: toks) j := by
  cases h with
  | noItem hs hrest =>
      have hempty :
          Derives (maxDepth - containers.length) [.beginArray, .endArray] (.array []) := by
        rw [room_of_lt hroom]
        exact derives_emptyArray _
      exact .value hempty hs hrest
  | firstItem h =>
      obtain ⟨first, parts, rest, s, rfl, hparts, hs, hrest⟩ := h.exists_items
      have harray := Derives.array hparts
      rw [← room_of_lt hroom, List.map_cons, enclosed_cons] at harray
      have hleads := Leads.value harray hs hrest
      rwa [List.cons_append, List.append_assoc, List.append_assoc] at hleads

theorem leads_beginObject (hroom : containers.length < maxDepth)
    (h : Leads (.reading .keyOrEnd (.object [] :: containers)) toks j) :
    Leads (.reading .value containers) (.beginObject :: toks) j := by
  cases h with
  | noEntry hs hrest =>
      have hempty :
          Derives (maxDepth - containers.length) [.beginObject, .endObject] (.object []) := by
        rw [room_of_lt hroom]
        exact derives_emptyObject _
      exact .value hempty hs hrest
  | firstEntry h =>
      obtain ⟨first, parts, rest, s, rfl, hparts, hs, hrest⟩ := h.exists_entries
      have hobject := Derives.object hparts
      rw [← room_of_lt hroom, List.map_cons, enclosed_cons] at hobject
      rw [Fields.insertAll_nil] at hs
      have hleads := Leads.value hobject hs hrest
      rwa [List.cons_append, List.append_assoc, List.append_assoc] at hleads

theorem leads_of_stepValue {token : Token} {s : State} (hs : stepValue containers token = some s)
    (h : Leads s toks j) : Leads (.reading .value containers) (token :: toks) j := by
  unfold stepValue at hs
  split at hs
  · exact .value (.scalar _) hs h
  · unfold begin at hs
    split at hs
    · rename_i hroom
      obtain rfl := Option.some.inj hs
      exact leads_beginArray hroom h
    · simp at hs
  · unfold begin at hs
    split at hs
    · rename_i hroom
      obtain rfl := Option.some.inj hs
      exact leads_beginObject hroom h
    · simp at hs
  · simp at hs

theorem leads_of_stepKey {token : Token} {s : State} (hs : stepKey containers token = some s)
    (h : Leads s toks j) : Leads (.reading .key containers) (token :: toks) j := by
  unfold stepKey at hs
  split at hs
  · obtain rfl := Option.some.inj hs
    exact .key h
  · simp at hs

theorem leads_noMoreItems {items : List Json} {s : State}
    (hs : deliver (.array items.reverse) outer = some s) (h : Leads s toks j) :
    Leads (.reading .commaOrEnd (.array items :: outer)) (.endArray :: toks) j := by
  rw [← List.append_nil items.reverse] at hs
  exact .items (fun _ hpart => absurd hpart List.not_mem_nil) hs h

theorem leads_noMoreEntries {fields : Fields Json} {s : State}
    (hs : deliver (.object fields) outer = some s) (h : Leads s toks j) :
    Leads (.reading .commaOrEnd (.object fields :: outer)) (.endObject :: toks) j :=
  .entries (fun _ hpart => absurd hpart List.not_mem_nil) hs h

theorem leads_of_stepAfter {token : Token} {s : State} (hs : stepAfter containers token = some s)
    (h : Leads s toks j) : Leads (.reading .commaOrEnd containers) (token :: toks) j := by
  unfold stepAfter at hs
  split at hs
  · obtain rfl := Option.some.inj hs
    obtain ⟨first, parts, rest, s, rfl, hparts, hs, hrest⟩ := h.exists_items
    have hleads := Leads.items hparts hs hrest
    rwa [List.map_cons, following, List.flatMap_cons, List.append_assoc] at hleads
  · obtain rfl := Option.some.inj hs
    obtain ⟨first, parts, rest, s, rfl, hparts, hs, hrest⟩ := h.exists_entries
    have hleads := Leads.entries hparts hs hrest
    rwa [List.map_cons, following, List.flatMap_cons, List.append_assoc] at hleads
  · unfold stepEnd at hs
    split at hs
    · exact leads_noMoreItems hs h
    · exact leads_noMoreEntries hs h
    · simp at hs

theorem leads_endArray {s : State} (hs : stepEnd containers .endArray = some s)
    (h : Leads s toks j) : Leads (.reading .valueOrEnd containers) (.endArray :: toks) j := by
  unfold stepEnd at hs
  split at hs
  · exact .noItem hs h
  · rename_i hmark
    cases hmark
  · simp at hs

theorem leads_endObject {s : State} (hs : stepEnd containers .endObject = some s)
    (h : Leads s toks j) : Leads (.reading .keyOrEnd containers) (.endObject :: toks) j := by
  unfold stepEnd at hs
  split at hs
  · rename_i hmark
    cases hmark
  · exact .noEntry hs h
  · simp at hs

/-- **One token back.**  If a token leads to a state and the tokens ahead of it follow the grammar,
so do the tokens with this one in front. -/
theorem leads_of_step {s next : State} {token : Token} (hs : step s token = some next)
    (h : Leads next toks j) : Leads s (token :: toks) j := by
  unfold step at hs
  split at hs
  · exact leads_of_stepValue hs h
  · exact leads_endArray hs h
  · exact .firstItem (leads_of_stepValue hs h)
  · exact leads_of_stepKey hs h
  · exact leads_endObject hs h
  · exact .firstEntry (leads_of_stepKey hs h)
  · obtain rfl := Option.some.inj hs
    exact .colon h
  · simp at hs
  · exact leads_of_stepAfter hs h
  · simp at hs

/-- All tokens of a run to a value follow the grammar. -/
theorem leads_of_run {s : State} (hs : run toks s = some (.finished j)) : Leads s toks j := by
  induction toks generalizing s with
  | nil =>
      obtain rfl := Option.some.inj hs
      exact .finished j
  | cons token toks ih =>
      rw [run_cons] at hs
      obtain ⟨next, hstep, hrun⟩ := Option.bind_eq_some_iff.mp hs
      exact leads_of_step hstep (ih hrun)

/-- At the start everything is still to come. -/
theorem derives_of_leads (h : Leads .start toks j) : Derives maxDepth toks j := by
  cases h with
  | value hpart hs hrest =>
      obtain rfl := Option.some.inj hs
      cases hrest
      rwa [List.append_nil]

end State

/-! ### Texts -/

theorem value?_eq_some_iff {s : State} {j : Json} : s.value? = some j ↔ s = .finished j := by
  cases s <;> simp [State.value?]

theorem value?_of_run_iff {toks : List Token} {j : Json} :
    (State.run toks .start).bind State.value? = some j ↔ Derives maxDepth toks j := by
  constructor
  · intro h
    obtain ⟨s, hrun, hvalue⟩ := Option.bind_eq_some_iff.mp h
    obtain rfl := value?_eq_some_iff.mp hvalue
    exact State.derives_of_leads (State.leads_of_run hrun)
  · intro h
    rw [State.start, State.delivers_of_derives h [] (Nat.zero_add maxDepth).le]
    rfl

/-- **The reader finds the value of every text that has one, and of no other.** -/
theorem parse?_eq_some_iff {text : String} {j : Json} : parse? text = some j ↔ Denotes text j := by
  constructor
  · intro h
    obtain ⟨toks, htoks, hvalue⟩ := Option.bind_eq_some_iff.mp h
    exact ⟨toks, spelled_of_tokens? htoks, value?_of_run_iff.mp hvalue⟩
  · rintro ⟨toks, hspelled, hderives⟩
    rw [parse?, tokens?_of_spelled hspelled hderives.apart]
    exact value?_of_run_iff.mpr hderives

/-- A text has at most one value. -/
theorem Denotes.unique {text : String} {j j' : Json} (h : Denotes text j) (h' : Denotes text j') :
    j = j' :=
  Option.some.inj ((parse?_eq_some_iff.mpr h).symm.trans (parse?_eq_some_iff.mpr h'))

end FieldQuery.Json

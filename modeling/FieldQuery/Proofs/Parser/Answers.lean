/-
What a parser answers.

Seen from the parser its lexemes are one stream of items, and a step takes an item off,
leaves the stream as it is or puts back what was taken, `Point.advance`.  Steps from
point to point make up calls, and a call that starts with the items of some phrases
answers what `Reading.next` answers with these phrases and leaves the items of those
that it leaves, `ends_next`.

The induction is on how the stream is made of phrases, `Phrased`: a path is a stretch of
fields with some other lexeme behind it, which the parser takes and gives back, and
every other phrase is one lexeme, which the parser takes unless it has to be left.

A parser reads lexemes and a reading reads phrases, so the two are not compared step by
step.  Between two phrases the parser stands at a point that the reading knows, and a
phrase is several of its steps. What it gives back in between is seen nowhere else,
because the reading never stops inside a path.
-/
import FieldQuery.Proofs.Condition.Grammar
import FieldQuery.Proofs.Parser.Lookahead
import FieldQuery.Proofs.Reading.Settled
import FieldQuery.Query.Parser

namespace FieldQuery

open Stream'

/-! ### The phrases of a stream

Behind the last item of a text its end is given for ever.  A path at the very end
therefore has a lexeme behind it like any other.
-/

/-- The stream holds the lexemes of these phrases and then the end of a text of this size. -/
inductive Phrased (size : Nat) : Stream' (Except ScanError Lexeme) → List Phrase → Prop
  | nil : Phrased size (Lexeme.ends size) []
  | lexeme {l : Lexeme} {s : Stream' (Except ScanError Lexeme)} {rest : List Phrase}
      (hfield : l.token ≠ .field) (heof : l.token ≠ .eof) (h : Phrased size s rest) :
      Phrased size (Stream'.cons (.ok l) s) (.lexeme l :: rest)
  /-- Behind a path stands a lexeme that is no field. -/
  | path {first l : Lexeme} {more : List Lexeme} {s : Stream' (Except ScanError Lexeme)}
      {rest : List Phrase} (hfields : ∀ f ∈ first :: more, f.token = .field)
      (hl : l.token ≠ .field) (h : Phrased size (Stream'.cons (.ok l) s) rest) :
      Phrased size ((first :: more).map .ok ++ₛ Stream'.cons (.ok l) s) (.path first more :: rest)
  | broken {fields : List Lexeme} {e : ScanError} (hfields : ∀ f ∈ fields, f.token = .field) :
      Phrased size (fields.map .ok ++ₛ Stream'.cons (.error e) (Lexeme.ends size))
        [.broken fields e]

namespace Phrased

variable {size : Nat} {s : Stream' (Except ScanError Lexeme)} {phrases : List Phrase}

/-- A field in front joins the phrases. -/
theorem consField (h : Phrased size s phrases) {field : Lexeme} (hfield : field.token = .field) :
    Phrased size (Stream'.cons (.ok field) s) (Phrase.consField field phrases) := by
  have hsingle : ∀ f ∈ [field], f.token = .field := by simpa using hfield
  cases h with
  | nil =>
      have hnil : Phrased size (Stream'.cons (.ok (Lexeme.atEnd size)) (Lexeme.ends size)) [] :=
        Lexeme.ends_eq size ▸ .nil
      have hpath := Phrased.path hsingle (by simp [Lexeme.atEnd]) hnil
      rwa [← Lexeme.ends_eq] at hpath
  | lexeme hl heof h => exact .path hsingle hl (.lexeme hl heof h)
  | path hfields hl h => exact .path (List.forall_mem_cons.mpr ⟨hfield, hfields⟩) hl h
  | broken hfields => exact .broken (List.forall_mem_cons.mpr ⟨hfield, hfields⟩)

/-- Items that end in a terminal one, followed by the end, hold their phrases. -/
theorem of_items {init : List (Except ScanError Lexeme)} {last : Except ScanError Lexeme}
    (hinit : ∀ item ∈ init, Lexeme.isTerminal item = false)
    (hlast : Lexeme.isTerminal last = true)
    (hend : ∀ l, last = .ok l → l = Lexeme.atEnd size) :
    Phrased size ((init ++ [last]) ++ₛ Lexeme.ends size) (Phrase.ofLexemes (init ++ [last])) := by
  induction init with
  | nil =>
      cases last with
      | error e =>
          have hbroken : Phrased size ([].map .ok ++ₛ Stream'.cons (.error e) (Lexeme.ends size))
            [.broken [] e] := .broken (by simp)
          exact hbroken
      | ok l =>
          obtain rfl := hend l rfl
          have hnil : Phrased size (Lexeme.ends size) [] := .nil
          rw [Lexeme.ends_eq] at hnil
          exact hnil
  | cons item init ih =>
      obtain ⟨hitem, hothers⟩ := List.forall_mem_cons.mp hinit
      cases item with
      | error e => simp [Lexeme.isTerminal] at hitem
      | ok l =>
          have heof : l.token ≠ .eof := beq_eq_false_iff_ne.mp hitem
          have hrest := ih hothers
          by_cases hfield : l.token = .field
          · have hphrases : Phrase.ofLexemes (.ok l :: init ++ [last]) =
                Phrase.consField l (Phrase.ofLexemes (init ++ [last])) := by
              simp [Phrase.ofLexemes, hfield]
            rw [hphrases]
            exact hrest.consField hfield
          · have hphrases : Phrase.ofLexemes (.ok l :: init ++ [last]) =
                .lexeme l :: Phrase.ofLexemes (init ++ [last]) := by
              rw [List.cons_append, Phrase.ofLexemes]
              split <;> simp_all
            rw [hphrases]
            exact .lexeme hfield heof hrest

/-- The items of a text hold its phrases. -/
theorem of_text (text : String) :
    Phrased text.utf8ByteSize (Lexeme.stream text) (Phrase.ofText text) := by
  have hfaithful := Lexeme.faithful_scan text
  obtain ⟨init, last, hitems, hlast, hinit⟩ := hfaithful.terminal
  rw [Lexeme.stream, Phrase.ofText, hitems]
  refine of_items hinit hlast fun l hl => ?_
  subst hl
  exact hfaithful.atEnd l (by rw [hitems]; simp) (beq_iff_eq.mp hlast)

end Phrased

/-- No operand is kept. -/
theorem Condition.State.place_ne_keeping (s : State) (operand : Tree) (first : Lexeme)
    (e : ParseError) : s.place operand first ≠ .error (.keeping e) := by
  unfold place
  split <;> simp

namespace Parser

/-! ### Steps on a stream

A point says what it demands, and the demand and the first item of the stream decide
where it leads.
-/

/-- Whether the parser stands between two calls. -/
def Point.isIdle : Point → Bool
  | .idle .. => true
  | _ => false

/-- Where the parser goes on if these are its items, and what is left of them then. -/
def Point.advance (p : Point) (s : Stream' (Except ScanError Lexeme)) :
    Point × Stream' (Except ScanError Lexeme) :=
  match p.demand with
  | .nothing next => (next, s)
  | .take next => (p.goOn next s.head, s.tail)
  | .look next =>
    (p.goOn next s.head,
      match s.head with
      | .ok _ => s
      | .error _ => s.tail)
  | .giveBack l next => (next, Stream'.cons (.ok l) s)

/-- A step of a call. -/
def Goes (a b : Point × Stream' (Except ScanError Lexeme)) : Prop :=
  a.1.isIdle = false ∧ b = a.1.advance a.2

/-- Steps of a call, one after the other. -/
abbrev Leads : Point × Stream' (Except ScanError Lexeme) →
    Point × Stream' (Except ScanError Lexeme) → Prop :=
  Relation.ReflTransGen Goes

section

variable {p : Point} {next : Lexeme → Point}

theorem isIdle_of_take (h : p.demand = .take next) : p.isIdle = false := by
  cases p <;> first | rfl | simp [Point.demand] at h

theorem isIdle_of_look (h : p.demand = .look next) : p.isIdle = false := by
  cases p <;> first | rfl | simp [Point.demand] at h

theorem goes_take (h : p.demand = .take next) (l : Lexeme)
    (s : Stream' (Except ScanError Lexeme)) : Goes (p, Stream'.cons (.ok l) s) (next l, s) := by
  refine ⟨isIdle_of_take h, ?_⟩
  simp only [Point.advance, h]
  rfl

theorem goes_look (h : p.demand = .look next) (l : Lexeme)
    (s : Stream' (Except ScanError Lexeme)) :
    Goes (p, Stream'.cons (.ok l) s) (next l, Stream'.cons (.ok l) s) := by
  refine ⟨isIdle_of_look h, ?_⟩
  simp only [Point.advance, h]
  rfl

theorem goes_look_ends (h : p.demand = .look next) (size : Nat) :
    Goes (p, Lexeme.ends size) (next (Lexeme.atEnd size), Lexeme.ends size) := by
  have hlook := goes_look h (Lexeme.atEnd size) (Lexeme.ends size)
  rwa [← Lexeme.ends_eq] at hlook

theorem goes_fail (h : p.demand = .take next ∨ p.demand = .look next) (e : ScanError)
    (s : Stream' (Except ScanError Lexeme)) :
    Goes (p, Stream'.cons (.error e) s) (.idle p.operators (some (.error (.scan e))), s) := by
  rcases h with h | h
  · refine ⟨isIdle_of_take h, ?_⟩
    simp only [Point.advance, h]
    rfl
  · refine ⟨isIdle_of_look h, ?_⟩
    simp only [Point.advance, h]
    rfl

end

/-! ### Paths

Fields are taken one at a time, and the induction is over the fields that are left.  The
lexeme behind them is looked at and left, or it is the error.
-/

/-- A path is read up to the lexeme behind it, which is left. -/
theorem leads_path (site : Site) {fields : List Lexeme} (hfields : ∀ f ∈ fields, f.token = .field)
    {l : Lexeme} (hl : l.token ≠ .field) (text : String) (s : Stream' (Except ScanError Lexeme)) :
    Leads (.path site text, fields.map .ok ++ₛ Stream'.cons (.ok l) s)
      (site.proceed (text ++ fields.foldr (fun f rest => f.text ++ rest) ""),
        Stream'.cons (.ok l) s) := by
  induction fields generalizing text with
  | nil =>
      have htake := goes_take (p := .path site text) rfl l s
      rw [if_neg hl] at htake
      rw [List.foldr_nil, String.append_empty]
      exact .head htake (.single ⟨rfl, rfl⟩)
  | cons f fields ih =>
      obtain ⟨hf, hfields⟩ := List.forall_mem_cons.mp hfields
      have htake := goes_take (p := .path site text) rfl f
        (fields.map .ok ++ₛ Stream'.cons (.ok l) s)
      rw [if_pos hf] at htake
      rw [List.foldr_cons, ← String.append_assoc]
      exact .head htake (ih hfields (text ++ f.text))

/-- A path that cannot be read to its end is gone with the error. -/
theorem leads_path_broken (site : Site) {fields : List Lexeme}
    (hfields : ∀ f ∈ fields, f.token = .field) (e : ScanError) (text : String)
    (s : Stream' (Except ScanError Lexeme)) :
    Leads (.path site text, fields.map .ok ++ₛ Stream'.cons (.error e) s)
      (.idle site.operators (some (.error (.scan e))), s) := by
  induction fields generalizing text with
  | nil => exact .single (goes_fail (.inl rfl) e s)
  | cons f fields ih =>
      obtain ⟨hf, hfields⟩ := List.forall_mem_cons.mp hfields
      have htake := goes_take (p := .path site text) rfl f
        (fields.map .ok ++ₛ Stream'.cons (.error e) s)
      rw [if_pos hf] at htake
      exact .head htake (ih hfields (text ++ f.text))

section

variable {p : Point} {next : Lexeme → Point} {site : Site} {first : Lexeme} {more : List Lexeme}

/-- A path whose first field has been looked at is read. -/
theorem leads_look_path (hdemand : p.demand = .look next) (hnext : next first = .path site "")
    (hfields : ∀ f ∈ first :: more, f.token = .field) {l : Lexeme} (hl : l.token ≠ .field)
    (s : Stream' (Except ScanError Lexeme)) :
    Leads (p, (first :: more).map .ok ++ₛ Stream'.cons (.ok l) s)
      (site.proceed (Phrase.pathText first more), Stream'.cons (.ok l) s) := by
  have hlook := goes_look hdemand first (more.map .ok ++ₛ Stream'.cons (.ok l) s)
  rw [hnext] at hlook
  have hread := leads_path site hfields hl "" s
  rw [String.empty_append] at hread
  exact .head hlook hread

/-- A path whose first field has been looked at is gone with the error behind it. -/
theorem leads_look_broken (hdemand : p.demand = .look next) (hnext : next first = .path site "")
    (hfields : ∀ f ∈ first :: more, f.token = .field) (e : ScanError)
    (s : Stream' (Except ScanError Lexeme)) :
    Leads (p, (first :: more).map .ok ++ₛ Stream'.cons (.error e) s)
      (.idle site.operators (some (.error (.scan e))), s) := by
  have hlook := goes_look hdemand first (more.map .ok ++ₛ Stream'.cons (.error e) s)
  rw [hnext] at hlook
  exact .head hlook (leads_path_broken site hfields e "" s)

end

/-! ### Conditions

The state of a condition is the same on both sides.  What differs is how a phrase comes
to be read: the parser looks at a lexeme first, to know whether a path begins there.
-/

/-- The query that a condition completes, if it does. -/
def completed (selectors : List String) (pos : Nat) :
    Except ParseError (Option Tree) → Except ParseError Query
  | .error e => .error e
  | .ok none => .error (.invalidCondition pos)
  | .ok (some tree) =>
    if tree.isCondition then .ok ⟨selectors, some tree⟩ else .error (.invalidCondition pos)

theorem nextCondition_eq (selectors : List String) (pos : Nat) (r : Reading) :
    let result := Condition.run r.size (.start r.operators) r.pending
    Reading.nextCondition selectors pos r =
      (completed selectors pos result.tree?, ⟨result.pending, result.operators, r.size⟩) := by
  rw [Reading.nextCondition]
  dsimp only
  cases (Condition.run r.size (.start r.operators) r.pending).tree? with
  | error e => rfl
  | ok tree? => cases tree? <;> rfl

/-- The call comes to its end with this answer and leaves what the reading leaves. -/
def Ends (size : Nat) (start : Point × Stream' (Except ScanError Lexeme))
    (result : Except ParseError Query × Reading) : Prop :=
  ∃ left, Phrased size left result.2.pending ∧
    Leads start (.idle result.2.operators (some (result.1.map Query.toTree)), left)

theorem Ends.of_goes {size : Nat} {a b : Point × Stream' (Except ScanError Lexeme)}
    {result : Except ParseError Query × Reading} (h : Goes a b) (hb : Ends size b result) :
    Ends size a result := by
  obtain ⟨left, hleft, hleads⟩ := hb
  exact ⟨left, hleft, .head h hleads⟩

theorem Ends.of_leads {size : Nat} {a b : Point × Stream' (Except ScanError Lexeme)}
    {result : Except ParseError Query × Reading} (h : Leads a b) (hb : Ends size b result) :
    Ends size a result := by
  obtain ⟨left, hleft, hleads⟩ := hb
  exact ⟨left, hleft, h.trans hleads⟩

namespace Clause

variable (c : Clause) {l : Lexeme}

theorem afterLook_of_isLiteral (h : l.token.isLiteral = true) : c.afterLook l = .literal c := by
  rcases Token.isLiteral_iff.mp h with htoken | htoken | htoken | htoken <;>
    simp only [afterLook, htoken]

theorem afterLook_of_field (hlist : c.state.list? = none) (h : l.token = .field) :
    c.afterLook l = .path (.operand c l) "" := by
  simp only [afterLook, hlist, h]

theorem afterLook_of_mark (heof : l.token ≠ .eof) (hfield : l.token = .field → c.state.list? ≠ none)
    (hliteral : l.token.isLiteral = false) : c.afterLook l = c.unlessKept l := by
  unfold afterLook
  split <;> simp_all [Token.isLiteral]

theorem step_ne_keeping (h : l.token.isLiteral = true) (e : ParseError) :
    c.state.step (.lexeme l) ≠ .error (.keeping e) := by
  have hplace := fun tree => c.state.place_ne_keeping tree l e
  intro hstep
  cases hlist : c.state.list? with
  | none =>
    rcases Token.isLiteral_iff.mp h with htoken | htoken | htoken | htoken <;>
      simp only [Condition.State.step, hlist, Condition.State.stepLexeme, htoken,
        Condition.State.stepLiteral] at hstep <;>
      split at hstep <;> simp_all
  | some literals =>
    rcases Token.isLiteral_iff.mp h with htoken | htoken | htoken | htoken <;>
      simp only [Condition.State.step, hlist, Condition.State.stepList, htoken] at hstep <;>
      split at hstep <;> simp_all

theorem leads_lexeme (hfield : l.token = .field → c.state.list? ≠ none) (heof : l.token ≠ .eof)
    (hstep : ∀ e, c.state.step (.lexeme l) ≠ .error (.keeping e))
    (s : Stream' (Except ScanError Lexeme)) :
    Leads (.phrase c, Stream'.cons (.ok l) s) (c.afterTake l, s) := by
  have hlook := goes_look (p := .phrase c) rfl l s
  cases hliteral : l.token.isLiteral with
  | true =>
      rw [afterLook_of_isLiteral c hliteral] at hlook
      exact .head hlook (.single (goes_take rfl l s))
  | false =>
      have hmark : c.afterLook l = .mark c l := by
        rw [afterLook_of_mark c heof hfield hliteral, unlessKept]
        split
        · rename_i e he
          exact absurd he (hstep e)
        · rfl
      rw [hmark] at hlook
      have htake := goes_take (p := .mark c l) rfl l s
      exact .head hlook (.single htake)

theorem goes_keeping (hfield : l.token = .field → c.state.list? ≠ none) (heof : l.token ≠ .eof)
    {e : ParseError} (hstep : c.state.step (.lexeme l) = .error (.keeping e))
    (s : Stream' (Except ScanError Lexeme)) :
    Goes (.phrase c, Stream'.cons (.ok l) s)
      (.idle c.state.operators (some (.error e)), Stream'.cons (.ok l) s) := by
  have hlook := goes_look (p := .phrase c) rfl l s
  cases hliteral : l.token.isLiteral with
  | true => exact absurd hstep (step_ne_keeping c hliteral e)
  | false =>
      rwa [afterLook_of_mark c heof hfield hliteral, unlessKept, hstep] at hlook

theorem goes_field (hlist : c.state.list? ≠ none) (hfield : l.token = .field)
    (s : Stream' (Except ScanError Lexeme)) :
    Goes (.phrase c, Stream'.cons (.ok l) s)
      (.idle c.state.operators (some (.error (.unexpected l))), Stream'.cons (.ok l) s) := by
  obtain ⟨literals, hlist'⟩ := Option.ne_none_iff_exists'.mp hlist
  refine goes_keeping c (fun _ => hlist) (by simp [hfield]) ?_ s
  simp only [Condition.State.step, hlist', Condition.State.stepList, hfield]

end Clause

section

variable {size : Nat} (selectors : List String) (pos : Nat)

/-- The condition of the selectors' query, in this state. -/
def clause (state : Condition.State) : Clause := ⟨selectors.map .path, pos, state⟩

/-- What a call answers if reading the condition comes to this result. -/
def result (size : Nat) (r : Condition.Result) : Except ParseError Query × Reading :=
  (completed selectors pos r.tree?, ⟨r.pending, r.operators, size⟩)

variable {selectors pos} {state : Condition.State} {s : Stream' (Except ScanError Lexeme)}
  {p : Phrase} {rest : List Phrase}

/-- At the end of the text the query is complete, or the condition is at fault. -/
theorem ends_finish :
    Ends size (.phrase (clause selectors pos state), Lexeme.ends size)
      (result selectors pos size (Condition.run size state [])) := by
  have hlook := goes_look_ends (p := .phrase (clause selectors pos state)) rfl size
  have hfinish : (clause selectors pos state).afterLook (Lexeme.atEnd size) =
      (clause selectors pos state).finish size := by
    simp only [Clause.afterLook, Lexeme.atEnd]
  rw [hfinish] at hlook
  refine .of_goes hlook ?_
  simp only [Clause.finish, clause, result, Condition.run]
  cases state.result size with
  | error e => exact ⟨_, .nil, .refl⟩
  | ok tree? =>
      cases tree? with
      | none => exact ⟨_, .nil, .refl⟩
      | some tree =>
          simp only [completed]
          cases tree.isCondition with
          | false => exact ⟨_, .nil, .refl⟩
          | true =>
              have hpart := goes_look_ends
                (p := .part ⟨selectors.map .path ++ [.filter tree], state.operators⟩) rfl size
              exact ⟨_, .nil, .single hpart⟩

theorem ends_keeping (h : Phrased size s (p :: rest)) {e : ParseError}
    (hstep : state.step p = .error (.keeping e)) :
    Ends size (.idle state.operators (some (.error e)), s)
      (result selectors pos size (Condition.run size state (p :: rest))) := by
  rw [Condition.run, hstep]
  exact ⟨s, h, .refl⟩

/-- A phrase that has been taken ends the call, or reading goes on behind it. -/
theorem ends_proceed (h : Phrased size s rest)
    (ih : ∀ state, Ends size (.phrase (clause selectors pos state), s)
      (result selectors pos size (Condition.run size state rest)))
    (hstep : ∀ e, state.step p ≠ .error (.keeping e)) :
    Ends size ((clause selectors pos state).proceed p.operatorCount (state.step p), s)
      (result selectors pos size (Condition.run size state (p :: rest))) := by
  rw [Condition.run]
  cases houtcome : state.step p with
  | ok state' => exact ih state'
  | error refusal =>
      cases refusal with
      | keeping e => exact absurd houtcome (hstep e)
      | dropping e => exact ⟨s, h, .refl⟩

/-- Reading a condition comes to the end that `Condition.run` comes to. -/
theorem ends_phrases {phrases : List Phrase} (h : Phrased size s phrases)
    (state : Condition.State) :
    Ends size (.phrase (clause selectors pos state), s)
      (result selectors pos size (Condition.run size state phrases)) := by
  induction h generalizing state with
  | nil => exact ends_finish
  | @lexeme l s rest hfield heof h ih =>
      have hnot : l.token = .field → state.list? ≠ none := fun htoken => absurd htoken hfield
      by_cases hkept : ∃ e, state.step (.lexeme l) = .error (.keeping e)
      · obtain ⟨e, hstep⟩ := hkept
        exact .of_goes (Clause.goes_keeping _ hnot heof hstep s)
          (ends_keeping (.lexeme hfield heof h) hstep)
      · have hstep := not_exists.mp hkept
        exact .of_leads (Clause.leads_lexeme _ hnot heof hstep s) (ends_proceed h ih hstep)
  | @path first l more s rest hfields hl h ih =>
      have hfirst : first.token = .field := hfields first List.mem_cons_self
      cases hlist : state.list? with
      | some literals =>
          have hstep : state.step (.path first more) = .error (.keeping (.unexpected first)) := by
            simp only [Condition.State.step, hlist]
          exact .of_goes (Clause.goes_field _ (by simp [clause, hlist]) hfirst _)
            (ends_keeping (.path hfields hl h) hstep)
      | none =>
          have hstep : state.step (.path first more) =
              state.place (.path (Phrase.pathText first more)) first := by
            simp only [Condition.State.step, hlist]
          have hproceed := ends_proceed (p := .path first more) h ih
            (fun e => hstep ▸ state.place_ne_keeping _ first e)
          rw [hstep] at hproceed
          have hlook := Clause.afterLook_of_field (clause selectors pos state) hlist hfirst
          exact .of_leads (leads_look_path rfl hlook hfields hl s) hproceed
  | @broken fields e hfields =>
      -- in a list a field is complained about before the error behind it is met
      cases fields with
      | nil =>
          have hstep : state.step (.broken [] e) = .error (.dropping (.scan e)) := by
            cases hlist : state.list? <;> simp only [Condition.State.step, hlist]
          rw [Condition.run, hstep]
          exact .of_goes (goes_fail (.inr rfl) e _) ⟨_, .nil, .refl⟩
      | cons first more =>
          have hfirst : first.token = .field := hfields first List.mem_cons_self
          cases hlist : state.list? with
          | some literals =>
              have hstep : state.step (.broken (first :: more) e) =
                  .error (.keeping (.unexpected first)) := by
                simp only [Condition.State.step, hlist]
              exact .of_goes (Clause.goes_field _ (by simp [clause, hlist]) hfirst _)
                (ends_keeping (.broken hfields) hstep)
          | none =>
              have hstep : state.step (.broken (first :: more) e) =
                  .error (.dropping (.scan e)) := by
                simp only [Condition.State.step, hlist]
              have hlook := Clause.afterLook_of_field (clause selectors pos state) hlist hfirst
              rw [Condition.run, hstep]
              exact .of_leads (leads_look_broken rfl hlook hfields e _) ⟨_, .nil, .refl⟩

end

/-! ### Calls

In front of the condition the parser keeps a draft of the query.  It passes over what
the reading passes over.
-/

namespace Draft

variable (d : Draft) {l : Lexeme}

theorem afterLook_of_field (h : l.token = .field) : d.afterLook l = .path (.selector d) "" := by
  simp only [afterLook, h]

theorem afterLook_of_where (h : l.token = .whereKeyword) : d.afterLook l = .filter d := by
  simp only [afterLook, h]

theorem afterLook_of_grouping (h : l.token.isGrouping = true) :
    d.afterLook l = .idle d.operators (some (.error (.unexpected l))) := by
  unfold afterLook
  split <;> simp_all [Token.isGrouping]

theorem afterLook_of_stray (hfield : l.token ≠ .field) (heof : l.token ≠ .eof)
    (hwhere : l.token ≠ .whereKeyword) (hgrouping : l.token.isGrouping = false) :
    d.afterLook l = .stray d := by
  unfold afterLook
  split <;> simp_all [Token.isGrouping]

end Draft

/-- The draft of a query with these selectors. -/
def draft (selectors : List String) (operators : Nat) : Draft :=
  ⟨selectors.map .path, operators⟩

/-- Reading a query comes to the end that `Reading.nextFrom` comes to. -/
theorem ends_parts {size : Nat} {s : Stream' (Except ScanError Lexeme)} {phrases : List Phrase}
    (h : Phrased size s phrases) (selectors : List String) (operators : Nat) :
    Ends size (.part (draft selectors operators), s)
      (Reading.nextFrom operators size selectors phrases) := by
  induction h generalizing selectors with
  | nil =>
      refine .of_goes (goes_look_ends rfl size) ⟨_, .nil, ?_⟩
      have htree : Query.toTree ⟨selectors, none⟩ = .sequence (selectors.map .path) := by
        rw [Query.toTree]
        exact congrArg Tree.sequence (List.append_nil _)
      rw [Reading.nextFrom, Except.map, htree]
      exact .refl
  | @lexeme l s rest hfield heof h ih =>
      have hlook := goes_look (p := .part (draft selectors operators)) rfl l s
      rw [Reading.nextFrom]
      by_cases hwhere : l.token = .whereKeyword
      · rw [if_pos hwhere, nextCondition_eq]
        rw [Draft.afterLook_of_where _ hwhere] at hlook
        refine .of_leads (.head hlook (.single (goes_take rfl l s))) ?_
        exact ends_phrases h (.start operators)
      · rw [if_neg hwhere]
        cases hgrouping : l.token.isGrouping with
        | true =>
            rw [if_pos rfl]
            rw [Draft.afterLook_of_grouping _ hgrouping] at hlook
            exact .of_goes hlook ⟨_, .lexeme hfield heof h, .refl⟩
        | false =>
            rw [if_neg Bool.false_ne_true]
            rw [Draft.afterLook_of_stray _ hfield heof hwhere hgrouping] at hlook
            have htake := goes_take (p := .stray (draft selectors operators)) rfl l s
            exact .of_leads (.head hlook (.single htake)) (ih selectors)
  | @path first l more s rest hfields hl h ih =>
      have hnext := ih (selectors ++ [Phrase.pathText first more])
      rw [draft, List.map_append] at hnext
      have hlook := Draft.afterLook_of_field (draft selectors operators)
        (hfields first List.mem_cons_self)
      exact .of_leads (leads_look_path rfl hlook hfields hl s) hnext
  | @broken fields e hfields =>
      rw [Reading.nextFrom]
      cases fields with
      | nil => exact .of_goes (goes_fail (.inr rfl) e _) ⟨_, .nil, .refl⟩
      | cons first more =>
          have hlook := Draft.afterLook_of_field (draft selectors operators)
            (hfields first List.mem_cons_self)
          exact .of_leads (leads_look_broken rfl hlook hfields e _) ⟨_, .nil, .refl⟩

theorem ends_next {s : Stream' (Except ScanError Lexeme)} {r : Reading}
    (h : Phrased r.size s r.pending) : Ends r.size (.part ⟨[], r.operators⟩, s) r.next :=
  ends_parts h [] r.operators

end Parser

/-- The text of a reading stays the same. -/
theorem Reading.size_next (r : Reading) : r.next.2.size = r.size := by
  suffices h : ∀ (phrases : List Phrase) (selectors : List String),
      (nextFrom r.operators r.size selectors phrases).2.size = r.size from h _ _
  intro phrases
  induction phrases with
  | nil => exact fun _ => rfl
  | cons p rest ih =>
      intro selectors
      cases p with
      | path first more => exact ih _
      | broken fields e => rfl
      | lexeme l =>
          rw [nextFrom]
          split
          · rfl
          · split
            · rfl
            · exact ih selectors

end FieldQuery

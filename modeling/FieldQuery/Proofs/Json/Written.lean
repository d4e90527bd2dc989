/-
JSON text that was written.

What a layout puts between the tokens is blank, so the tokens are the same in every
layout, and a value is read as its own tokens, its floats as what their texts stand for:
`tokens?_render`.  If the text of one of its floats is refused, so is the whole text,
wherever the float stands in it.

A number has to be followed by something that stops it.  In a written text that is a
comma, a closing mark or a blank in front of one of these, or the end; this is why the
induction carries a rest that stops and not any rest.
-/
import FieldQuery.Proofs.Json.Float
import FieldQuery.Proofs.Json.Reads

namespace FieldQuery.Json

/-! ### Values that hold no other

A word, a number or a string is read as itself; only the text of a float may be read as
something else, or not at all.
-/

theorem reads_string (text : String) (rest : List Char) :
    Reads (stringText text) rest true [.scalar (.string text)] := by
  have hreads := reads_quoted (quoted_escaped text.toList) rest
  rwa [String.ofList_toList] at hreads

/-- What the text of a scalar is read as; what is refused stays as it is. -/
def Scalar.reread (s : Scalar) : Scalar := s.reread?.getD s

/-- Whether the text of a scalar is not refused. -/
def Scalar.legible (s : Scalar) : Bool := s.reread?.isSome

theorem reads_scalar {s : Scalar} (h : s.Fits) {rest : List Char} (hrest : Stops rest) :
    Reads s.text rest s.legible [.scalar s.reread] := by
  cases s with
  | null => exact reads_run rfl .null (List.cons_ne_nil _ _) (List.all_eq_true.mp rfl) hrest
  | bool b =>
      cases b <;>
        exact reads_run rfl .null (List.cons_ne_nil _ _) (List.all_eq_true.mp rfl) hrest
  | integer n =>
      have hnumeral := Numeral.ofInt h
      exact reads_run hnumeral.ofRun? .null hnumeral.ne_nil hnumeral.isRunChar hrest
  | float x =>
      have hx : x.isFinite = true := h
      rw [Scalar.text, if_pos hx]
      exact reads_run (ofRun?_text hx) _ (text_ne_nil hx) (fun _ => isRunChar_of_mem_text hx) hrest
  | string text => exact reads_string text rest

/-! ### Layouts

Nothing is said about where a layout breaks its lines, only that it puts blanks there.
-/

/-- What a layout puts between tokens is read as nothing. -/
structure Layout.Blank (layout : Layout) : Prop where
  afterColon : ∀ c ∈ layout.afterColon, isSpace c = true
  lineBreak : ∀ depth, ∀ c ∈ layout.lineBreak depth, isSpace c = true

theorem Layout.blank_compact : Layout.compact.Blank := ⟨by simp [compact], by simp [compact]⟩

theorem Layout.blank_pretty : Layout.pretty.Blank := by
  refine ⟨by simp [pretty, isSpace], fun depth c hc => ?_⟩
  rcases List.mem_cons.mp hc with rfl | hmem
  · rfl
  · rw [List.eq_of_mem_replicate hmem]
    rfl

/-- A run ends at a blank, and at a mark behind blanks. -/
theorem Stops.space_append {cs rest : List Char} (h : ∀ c ∈ cs, isSpace c = true)
    (hrest : Stops rest) : Stops (cs ++ rest) :=
  Text.forall_head_append
    (fun c hc => not_isRunChar_of_isSpace (h c (List.mem_of_mem_head? hc))) hrest

/-! ### Containers

A container is written as its parts between two marks.  `ReadsParts` says of the parts
what is needed to read them in a row, without saying what they are.
-/

mutual

/-- The tokens of a value. -/
def tokens : Json → List Token
  | .scalar s => [.scalar s]
  | .array items => enclosed .beginArray .endArray (tokenItems items)
  | .object fields => enclosed .beginObject .endObject (tokenFields fields)

/-- The tokens of the items of an array. -/
def tokenItems : List Json → List (List Token)
  | [] => []
  | j :: rest => tokens j :: tokenItems rest

/-- The tokens of the entries of an object. -/
def tokenFields : List (String × Json) → List (List Token)
  | [] => []
  | (key, j) :: rest => entryTokens key (tokens j) :: tokenFields rest

end

mutual

/-- Whether everything inside a value fits that holds no other. -/
def Fits : Json → Prop
  | .scalar s => s.Fits
  | .array items => FitsItems items
  | .object fields => FitsFields fields

/-- Whether the items of an array fit. -/
def FitsItems : List Json → Prop
  | [] => True
  | j :: rest => j.Fits ∧ FitsItems rest

/-- Whether the values of the entries of an object fit. -/
def FitsFields : List (String × Json) → Prop
  | [] => True
  | (_, j) :: rest => j.Fits ∧ FitsFields rest

end

mutual

/-- Whether the text of no scalar inside a value is refused. -/
def legible : Json → Bool
  | .scalar s => s.legible
  | .array items => legibleItems items
  | .object fields => legibleFields fields

/-- Whether the text of no scalar inside the items of an array is. -/
def legibleItems : List Json → Bool
  | [] => true
  | j :: rest => j.legible && legibleItems rest

/-- Whether the text of no scalar inside the values of the entries of an object is. -/
def legibleFields : List (String × Json) → Bool
  | [] => true
  | (_, j) :: rest => j.legible && legibleFields rest

end

mutual

/-- What the text of a value is read as, if none of it is refused. -/
def reread : Json → Json
  | .scalar s => .scalar s.reread
  | .array items => .array (rereadItems items)
  | .object fields => .object (rereadFields fields)

/-- What the texts of the items of an array are read as. -/
def rereadItems : List Json → List Json
  | [] => []
  | j :: rest => j.reread :: rereadItems rest

/-- What the texts of the values of the entries of an object are read as. -/
def rereadFields : List (String × Json) → List (String × Json)
  | [] => []
  | (key, j) :: rest => (key, j.reread) :: rereadFields rest

end

/-- Parts are read as tokens part by part, if every part is legible. -/
inductive ReadsParts : List (List Char) → Bool → List (List Token) → Prop where
  | nil : ReadsParts [] true []
  | cons {part : List Char} {a : Bool} {toks : List Token} {parts : List (List Char)} {b : Bool}
      {read : List (List Token)} (hpart : ∀ rest, Stops rest → Reads part rest a toks)
      (hparts : ReadsParts parts b read) : ReadsParts (part :: parts) (a && b) (toks :: read)

variable {layout : Layout}

theorem reads_intercalate (hblank : layout.Blank) (depth : Nat) {parts : List (List Char)}
    {legible : Bool} {read : List (List Token)} (hparts : ReadsParts parts legible read)
    {rest : List Char} (hrest : Stops rest) :
    Reads (List.intercalate (',' :: layout.lineBreak depth) parts) rest legible
      (List.intercalate [.comma] read) := by
  induction hparts with
  | nil => exact reads_nil rest
  | @cons part a toks parts b read hpart hparts ih =>
      cases hparts with
      | nil =>
          rw [List.intercalate_singleton, List.intercalate_singleton, Bool.and_true]
          exact hpart rest hrest
      | cons hnext hmore =>
          rw [List.intercalate_cons_cons, List.intercalate_cons_cons]
          have hstop : ∀ rest, Stops (',' :: rest) := by
            intro rest c hc
            obtain rfl := Option.some.inj hc
            rfl
          have hcomma := reads_mark (c := ',') rfl (hblank.lineBreak depth)
          have hall := Reads.append (Reads.append (hpart _ (hstop _)) (hcomma _)) ih
          rwa [Bool.and_true] at hall

/-- Parts in a container are read as its tokens. -/
theorem reads_enclose (hblank : layout.Blank) (depth : Nat) {opening closing : Char}
    {first last : Token} (hfirst : punctuation? opening = some first)
    (hlast : punctuation? closing = some last) (hclosing : isRunChar closing = false)
    {parts : List (List Char)} {legible : Bool} {read : List (List Token)}
    (hparts : ReadsParts parts legible read) (rest : List Char) :
    Reads (enclose layout depth opening closing parts) rest legible
      (enclosed first last read) := by
  have hend : Reads (layout.lineBreak depth ++ [closing]) rest true [last] :=
    (reads_space (hblank.lineBreak depth) _).append (reads_punctuation hlast rest)
  have hstop : Stops (layout.lineBreak depth ++ [closing] ++ rest) := by
    rw [List.append_assoc]
    refine Stops.space_append (hblank.lineBreak depth) fun c hc => ?_
    obtain rfl := Option.some.inj hc
    exact hclosing
  unfold enclose
  split
  · rename_i hempty
    obtain rfl := List.isEmpty_iff.mp hempty
    cases hparts
    exact (reads_punctuation hfirst _).append (reads_punctuation hlast rest)
  · rw [List.append_assoc (_ ++ _)]
    have hopen := reads_mark hfirst (hblank.lineBreak (depth + 1))
    have hinner := reads_intercalate hblank (depth + 1) hparts hstop
    have hall := ((hopen _).append hinner).append hend
    rwa [Bool.true_and, Bool.and_true] at hall

mutual

/-- A written value is read as its tokens, if it is legible. -/
theorem reads_render (hblank : layout.Blank) : ∀ j : Json, j.Fits →
    ∀ (depth : Nat) {rest : List Char}, Stops rest →
      Reads (render layout depth j) rest j.legible (tokens j.reread)
  | .scalar _, hfits, _, _, hrest => reads_scalar hfits hrest
  | .array items, hfits, depth, rest, _ =>
      have hitems := reads_renderItems hblank items hfits (depth + 1)
      reads_enclose hblank depth rfl rfl rfl hitems rest
  | .object fields, hfits, depth, rest, _ =>
      have hfields := reads_renderFields hblank fields hfits (depth + 1)
      reads_enclose hblank depth rfl rfl rfl hfields rest

theorem reads_renderItems (hblank : layout.Blank) : ∀ items, FitsItems items → ∀ depth,
    ReadsParts (renderItems layout depth items) (legibleItems items)
      (tokenItems (rereadItems items))
  | [], _, _ => .nil
  | j :: rest, hfits, depth =>
      .cons (fun _ hrest => reads_render hblank j hfits.1 depth hrest)
        (reads_renderItems hblank rest hfits.2 depth)

theorem reads_renderFields (hblank : layout.Blank) : ∀ fields, FitsFields fields → ∀ depth,
    ReadsParts (renderFields layout depth fields) (legibleFields fields)
      (tokenFields (rereadFields fields))
  | [], _, _ => .nil
  | (key, j) :: more, hfits, depth => by
      refine .cons (fun rest hrest => ?_) (reads_renderFields hblank more hfits.2 depth)
      have hcolon := reads_mark (c := ':') rfl hblank.afterColon
      have hvalue := reads_render hblank j hfits.1 depth hrest
      exact ((reads_string key _).append (hcolon _)).append hvalue

end

/-- A text holds the tokens of its value and no others, or it is refused. -/
theorem tokens?_render (hblank : layout.Blank) {j : Json} (hfits : j.Fits) (depth : Nat) :
    tokens? (render layout depth j) = if j.legible then some (tokens j.reread) else none := by
  have hreads : Reads (render layout depth j) [] j.legible (tokens j.reread) :=
    reads_render hblank j hfits depth (by simp [Stops])
  rw [Reads, List.append_nil, tokens?, Option.map_some, List.append_nil] at hreads
  exact hreads

end FieldQuery.Json

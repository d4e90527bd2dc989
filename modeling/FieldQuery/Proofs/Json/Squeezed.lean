/-
Layouts that add nothing but spaces and line feeds.

`squeeze` deletes every space and every line feed of a JSON text that does not stand in
a string. Whether a character stands in a string depends on all the text in front of it:
a quotation mark begins a string or ends it, unless a backslash escapes it.  `Squeezes`
therefore speaks of a stretch that begins and ends outside strings, in front of any
rest.  Written strings are such stretches and keep all their characters; what a layout
puts between the marks is deleted, so every text of a value comes down to its compact
text.

Deleting knows nothing of JSON.  It goes through the characters with three places to
keep apart, and so the statement says about the pretty text what anybody can check by
looking at it.  What it rests on is that a written string has a mark at both ends and no
other that is not escaped.
-/
import FieldQuery.Json.Value
import FieldQuery.Proofs.Json.Written
import FieldQuery.Proofs.Text.Classes

namespace FieldQuery

namespace Json

/-! ### Deleting what stands outside strings

Three places are enough: outside strings, inside one, and behind a backslash in one.
-/

/-- Where a character of a JSON text stands. -/
inductive Place where
  | outside
  /-- In a string, or at its closing mark. -/
  | inside
  /-- In a string, behind a backslash that escapes it. -/
  | escaped
  deriving DecidableEq

/-- Where the character behind one at this place stands. -/
def Place.next : Place → Char → Place
  | .outside, c => if c = '"' then .inside else .outside
  | .inside, c => if c = '"' then .outside else if c = '\\' then .escaped else .inside
  | .escaped, _ => .inside

/-- The characters, the first of them at this place, without the spaces and line feeds outside
strings. -/
def squeeze : Place → List Char → List Char
  | _, [] => []
  | place, c :: rest =>
    if place = .outside ∧ (c = ' ' ∨ c = '\n') then squeeze .outside rest
    else c :: squeeze (place.next c) rest

/-- In front of any rest, this is left of the characters, which begin and end outside strings. -/
def Squeezes (cs left : List Char) : Prop :=
  ∀ rest, squeeze .outside (cs ++ rest) = left ++ squeeze .outside rest

theorem Squeezes.squeeze_eq {cs left : List Char} (h : Squeezes cs left) :
    squeeze .outside cs = left := by
  have hrest := h []
  rwa [List.append_nil, squeeze, List.append_nil] at hrest

theorem squeezes_nil : Squeezes [] [] := fun _ => rfl

theorem Squeezes.append {cs ds left more : List Char} (h : Squeezes cs left)
    (hmore : Squeezes ds more) : Squeezes (cs ++ ds) (left ++ more) := by
  intro rest
  rw [List.append_assoc, h, hmore, List.append_assoc]

/-- Nothing is left of spaces and line feeds. -/
theorem squeezes_gap {cs : List Char} (h : ∀ c ∈ cs, c = ' ' ∨ c = '\n') : Squeezes cs [] := by
  induction cs with
  | nil => exact squeezes_nil
  | cons c cs ih =>
      obtain ⟨hc, hcs⟩ := List.forall_mem_cons.mp h
      intro rest
      rw [List.cons_append, squeeze, if_pos ⟨rfl, hc⟩]
      exact ih hcs rest

theorem squeezes_plain {cs : List Char} (h : ∀ c ∈ cs, c ≠ '"' ∧ c ≠ ' ' ∧ c ≠ '\n') :
    Squeezes cs cs := by
  induction cs with
  | nil => exact squeezes_nil
  | cons c cs ih =>
      obtain ⟨⟨hmark, hspace, hfeed⟩, hcs⟩ := List.forall_mem_cons.mp h
      intro rest
      rw [List.cons_append, squeeze, if_neg (by simp [hspace, hfeed]), Place.next, if_neg hmark,
        ih hcs]
      rfl

theorem squeezes_mark {c : Char} (hmark : c ≠ '"') (hspace : c ≠ ' ') (hfeed : c ≠ '\n') :
    Squeezes [c] [c] :=
  squeezes_plain fun d hd => by
    obtain rfl := List.mem_singleton.mp hd
    exact ⟨hmark, hspace, hfeed⟩

/-! ### Strings

An escape is a backslash and one character, or a backslash, a letter and four digits.
In the second form the digits are ordinary characters of the string, so no place of
their own is needed.
-/

theorem squeeze_inside {c : Char} (hmark : c ≠ '"') (hbackslash : c ≠ '\\') (rest : List Char) :
    squeeze .inside (c :: rest) = c :: squeeze .inside rest := by
  simp [squeeze, Place.next, hmark, hbackslash]

/-- What a backslash escapes neither ends the string nor escapes anything itself. -/
theorem squeeze_backslash (c : Char) (rest : List Char) :
    squeeze .inside ('\\' :: c :: rest) = '\\' :: c :: squeeze .inside rest := by
  simp [squeeze, Place.next]

theorem squeeze_digits {digits : List Char} (h : ∀ c ∈ digits, c ≠ '"' ∧ c ≠ '\\')
    (rest : List Char) : squeeze .inside (digits ++ rest) = digits ++ squeeze .inside rest := by
  induction digits with
  | nil => rfl
  | cons c digits ih =>
      obtain ⟨⟨hmark, hbackslash⟩, hdigits⟩ := List.forall_mem_cons.mp h
      rw [List.cons_append, squeeze_inside hmark hbackslash, ih hdigits, List.cons_append]

/-- What holds of the sixteen digits holds of the four of a number. -/
theorem forall_mem_hexFour {P : Char → Prop} (h : ∀ m < 16, P (Nat.digitChar m)) (n : Nat) :
    ∀ c ∈ hexFour n, P c := by
  have hdigit : ∀ m, P (Nat.digitChar (m % 16)) := fun m => h _ (Nat.mod_lt m (by decide))
  simp only [hexFour, List.forall_mem_cons, List.not_mem_nil, false_implies, implies_true,
    and_true]
  exact ⟨hdigit _, hdigit _, hdigit _, hdigit _⟩

/-- A written character stays, and the string goes on behind it. -/
theorem squeeze_escaped (c : Char) (rest : List Char) :
    squeeze .inside (escaped c ++ rest) = escaped c ++ squeeze .inside rest := by
  unfold escaped
  split
  · exact squeeze_backslash _ rest
  · exact squeeze_backslash _ rest
  · exact squeeze_backslash _ rest
  · exact squeeze_backslash _ rest
  · exact squeeze_backslash _ rest
  · rename_i hmark hbackslash _ _ _
    split
    · have hdigits : ∀ d ∈ hexFour c.toNat, d ≠ '"' ∧ d ≠ '\\' :=
        forall_mem_hexFour (by decide) c.toNat
      rw [List.cons_append, List.cons_append, squeeze_backslash, squeeze_digits hdigits]
      rfl
    · exact squeeze_inside hmark hbackslash rest

theorem squeezes_string (text : String) : Squeezes (stringText text) (stringText text) := by
  have hbody : ∀ (cs rest : List Char), squeeze .inside (cs.flatMap escaped ++ rest) =
      cs.flatMap escaped ++ squeeze .inside rest := by
    intro cs rest
    induction cs with
    | nil => rfl
    | cons c cs ih => rw [List.flatMap_cons, List.append_assoc, squeeze_escaped, ih,
        List.append_assoc]
  intro rest
  rw [stringText, List.append_assoc, List.append_assoc]
  show '"' :: squeeze .inside (text.toList.flatMap escaped ++ '"' :: rest) = _
  rw [hbody]
  rfl

/-! ### Values -/

/-- A scalar is written as a run of characters of numbers and words, or as a string. -/
theorem text_run_or_string (s : Scalar) :
    (∀ c ∈ s.text, isRunChar c = true) ∨ ∃ text, s.text = stringText text := by
  cases s with
  | null => exact .inl (List.all_eq_true.mp rfl)
  | bool b => cases b <;> exact .inl (List.all_eq_true.mp rfl)
  | integer n => exact .inl fun _ => isRunChar_of_mem_ofInt
  | float x =>
      rw [Scalar.text]
      split
      · rename_i hx
        exact .inl fun _ => isRunChar_of_mem_text hx
      · exact .inl (List.all_eq_true.mp rfl)
  | string text => exact .inr ⟨text, rfl⟩

/-- Of a scalar all is left. -/
theorem squeezes_scalar (s : Scalar) : Squeezes s.text s.text := by
  rcases text_run_or_string s with hrun | ⟨text, htext⟩
  · refine squeezes_plain fun c hc => ⟨?_, ?_, ?_⟩
    all_goals
      rintro rfl
      exact absurd (hrun _ hc) (by decide)
  · rw [htext]
    exact squeezes_string text

/-- A layout that puts nothing but spaces and line feeds between the marks. -/
structure Layout.Loose (layout : Layout) : Prop where
  afterColon : ∀ c ∈ layout.afterColon, c = ' ' ∨ c = '\n'
  lineBreak : ∀ depth, ∀ c ∈ layout.lineBreak depth, c = ' ' ∨ c = '\n'

theorem Layout.loose_pretty : Layout.pretty.Loose := by
  refine ⟨by simp [pretty], fun depth c hc => ?_⟩
  rcases List.mem_cons.mp hc with rfl | hmem
  · exact .inr rfl
  · exact .inl (List.eq_of_mem_replicate hmem)

variable {layout : Layout}

theorem squeezes_intercalate (hloose : layout.Loose) (depth : Nat) {parts left : List (List Char)}
    (hparts : List.Forall₂ Squeezes parts left) :
    Squeezes (List.intercalate (',' :: layout.lineBreak depth) parts)
      (List.intercalate [','] left) := by
  have hcomma : Squeezes (',' :: layout.lineBreak depth) [','] :=
    (squeezes_mark (by decide) (by decide) (by decide)).append
      (squeezes_gap (hloose.lineBreak depth))
  induction hparts with
  | nil => exact squeezes_nil
  | cons hpart hparts ih =>
      cases hparts with
      | nil =>
          rw [List.intercalate_singleton, List.intercalate_singleton]
          exact hpart
      | cons hnext hmore =>
          rw [List.intercalate_cons_cons, List.intercalate_cons_cons]
          exact (hpart.append hcomma).append ih

/-- A container comes down to its compact text if its parts do. -/
theorem squeezes_enclose (hloose : layout.Loose) (depth : Nat) {opening closing : Char}
    (hopening : Squeezes [opening] [opening]) (hclosing : Squeezes [closing] [closing])
    {parts left : List (List Char)} (hparts : List.Forall₂ Squeezes parts left) :
    Squeezes (enclose layout depth opening closing parts)
      (enclose .compact depth opening closing left) := by
  unfold enclose
  cases hparts with
  | nil => exact hopening.append hclosing
  | cons hpart hrest =>
      have hinner := squeezes_intercalate hloose (depth + 1) (.cons hpart hrest)
      have hbreak := fun depth => squeezes_gap (hloose.lineBreak depth)
      rw [if_neg (by simp), if_neg (by simp)]
      exact (((hopening.append (hbreak _)).append hinner).append (hbreak _)).append hclosing

mutual

/-- A text comes down to the compact text of its value. -/
theorem squeezes_render (hloose : layout.Loose) : ∀ (depth : Nat) (j : Json),
    Squeezes (render layout depth j) (render .compact depth j)
  | _, .scalar s => squeezes_scalar s
  | depth, .array items =>
      have hitems := squeezes_renderItems hloose (depth + 1) items
      squeezes_enclose hloose depth (squeezes_mark (by decide) (by decide) (by decide))
        (squeezes_mark (by decide) (by decide) (by decide)) hitems
  | depth, .object fields =>
      have hfields := squeezes_renderFields hloose (depth + 1) fields
      squeezes_enclose hloose depth (squeezes_mark (by decide) (by decide) (by decide))
        (squeezes_mark (by decide) (by decide) (by decide)) hfields

theorem squeezes_renderItems (hloose : layout.Loose) : ∀ (depth : Nat) (items : List Json),
    List.Forall₂ Squeezes (renderItems layout depth items) (renderItems .compact depth items)
  | _, [] => .nil
  | depth, j :: rest =>
      .cons (squeezes_render hloose depth j) (squeezes_renderItems hloose depth rest)

theorem squeezes_renderFields (hloose : layout.Loose) :
    ∀ (depth : Nat) (fields : List (String × Json)),
      List.Forall₂ Squeezes (renderFields layout depth fields) (renderFields .compact depth fields)
  | _, [] => .nil
  | depth, (key, j) :: rest => by
      refine .cons ?_ (squeezes_renderFields hloose depth rest)
      have hcolon : Squeezes (':' :: layout.afterColon) [':'] :=
        (squeezes_mark (by decide) (by decide) (by decide)).append
          (squeezes_gap hloose.afterColon)
      exact ((squeezes_string key).append hcolon).append (squeezes_render hloose depth j)

end

/-! ### Control characters

The compact layout adds nothing, and everything else that is written is seen.
-/

/-- Characters with no control character among them. -/
def Visible (cs : List Char) : Prop := ∀ c ∈ cs, Text.isControl c = false

theorem visible_nil : Visible [] := fun _ hc => absurd hc List.not_mem_nil

theorem visible_cons_iff {c : Char} {cs : List Char} :
    Visible (c :: cs) ↔ Text.isControl c = false ∧ Visible cs := List.forall_mem_cons

theorem Visible.append {cs ds : List Char} (h : Visible cs) (h' : Visible ds) :
    Visible (cs ++ ds) := List.forall_mem_append.mpr ⟨h, h'⟩

theorem visible_mark {c : Char} (h : Text.isControl c = false) : Visible [c] :=
  visible_cons_iff.mpr ⟨h, visible_nil⟩

theorem visible_intercalate {mark : List Char} (hmark : Visible mark) {parts : List (List Char)}
    (hparts : ∀ part ∈ parts, Visible part) : Visible (List.intercalate mark parts) := by
  induction parts with
  | nil => exact visible_nil
  | cons part parts ih =>
      obtain ⟨hpart, hrest⟩ := List.forall_mem_cons.mp hparts
      cases parts with
      | nil => rwa [List.intercalate_singleton]
      | cons next more =>
          rw [List.intercalate_cons_cons]
          exact (hpart.append hmark).append (ih hrest)

theorem isControl_of_isRunChar {c : Char} (h : isRunChar c = true) : Text.isControl c = false := by
  have hrange : 0x20 ≤ c.toNat ∧ c.toNat < 0x7f := by
    simp only [isRunChar, Char.isAlphanum, Bool.or_eq_true, beq_iff_eq] at h
    rcases h with (((hletter | hdigit) | rfl) | rfl) | rfl
    · have hbounds := Text.bounds_of_isAlpha hletter
      omega
    · have hbounds := Text.bounds_of_isDigit hdigit
      omega
    · decide
    · decide
    · decide
  exact decide_eq_false (by omega)

/-- Every control character of a string is written by other characters. -/
theorem visible_escaped (c : Char) : Visible (escaped c) := by
  have hpair : ∀ letter, Text.isControl letter = false → Visible ['\\', letter] :=
    fun _ h => visible_cons_iff.mpr ⟨by decide, visible_mark h⟩
  unfold escaped
  split
  · exact hpair _ (by decide)
  · exact hpair _ (by decide)
  · exact hpair _ (by decide)
  · exact hpair _ (by decide)
  · exact hpair _ (by decide)
  · split
    · have hdigits : Visible (hexFour c.toNat) := forall_mem_hexFour (by decide) c.toNat
      exact (hpair 'u' (by decide)).append hdigits
    · rename_i hcontrol
      exact visible_mark (by simpa using hcontrol)

theorem visible_string (text : String) : Visible (stringText text) := by
  have hbody : Visible (text.toList.flatMap escaped) := by
    intro c hc
    obtain ⟨d, -, hd⟩ := List.mem_flatMap.mp hc
    exact visible_escaped d c hd
  exact (visible_cons_iff.mpr ⟨by decide, hbody⟩).append (visible_mark (by decide))

theorem visible_scalar (s : Scalar) : Visible s.text := by
  rcases text_run_or_string s with hrun | ⟨text, htext⟩
  · exact fun c hc => isControl_of_isRunChar (hrun c hc)
  · rw [htext]
    exact visible_string text

theorem visible_enclose (depth : Nat) {opening closing : Char}
    (hopening : Text.isControl opening = false) (hclosing : Text.isControl closing = false)
    {parts : List (List Char)} (hparts : ∀ part ∈ parts, Visible part) :
    Visible (enclose .compact depth opening closing parts) := by
  unfold enclose
  split
  · exact visible_cons_iff.mpr ⟨hopening, visible_mark hclosing⟩
  · have hinner := visible_intercalate (visible_mark (c := ',') (by decide)) hparts
    have hopen : Visible (opening :: Layout.compact.lineBreak (depth + 1)) := visible_mark hopening
    exact ((hopen.append hinner).append visible_nil).append (visible_mark hclosing)

mutual

theorem visible_render : ∀ (depth : Nat) (j : Json), Visible (render .compact depth j)
  | _, .scalar s => visible_scalar s
  | depth, .array items =>
      visible_enclose depth (by decide) (by decide) (visible_renderItems (depth + 1) items)
  | depth, .object fields =>
      visible_enclose depth (by decide) (by decide) (visible_renderFields (depth + 1) fields)

theorem visible_renderItems : ∀ (depth : Nat) (items : List Json),
    ∀ part ∈ renderItems .compact depth items, Visible part
  | _, [] => fun _ hpart => absurd hpart List.not_mem_nil
  | depth, j :: rest =>
      List.forall_mem_cons.mpr ⟨visible_render depth j, visible_renderItems depth rest⟩

theorem visible_renderFields : ∀ (depth : Nat) (fields : List (String × Json)),
    ∀ part ∈ renderFields .compact depth fields, Visible part
  | _, [] => fun _ hpart => absurd hpart List.not_mem_nil
  | depth, (key, j) :: rest => by
      refine List.forall_mem_cons.mpr ⟨?_, visible_renderFields depth rest⟩
      have hcolon : Visible (':' :: Layout.compact.afterColon) := visible_mark (by decide)
      exact ((visible_string key).append hcolon).append (visible_render depth j)

end

end Json

namespace Value

/--
**Pretty and compact text differ in blanks alone.**  Deleting every space and every line feed
outside strings from the pretty text of a value, whatever its floats, strings, keys and empty
containers, leaves its compact text.  The compact text has no control character, and so it is a
single line.
-/
theorem squeeze_pretty (v : Value) :
    String.ofList (Json.squeeze .outside (v.text .pretty).toList) = v.text .compact ∧
      (∀ c ∈ (v.text .compact).toList, Text.isControl c = false) ∧
      '\n' ∉ (v.text .compact).toList := by
  have hvisible : Json.Visible (v.text .compact).toList := by
    rw [text, Json.text, String.toList_ofList]
    exact Json.visible_render 0 (Json.ofValue v)
  refine ⟨?_, hvisible, fun hfeed => ?_⟩
  · have hsqueezed := Json.squeezes_render Json.Layout.loose_pretty 0 (Json.ofValue v)
    rw [text, Json.text, String.toList_ofList, hsqueezed.squeeze_eq]
    rfl
  · exact absurd (hvisible _ hfeed) (by decide)

-- an escaped mark does not end the string, and an escaped backslash escapes nothing
example : Json.squeeze .outside "[\n  \"a \\\" b\",\n  \"\\\\\"\n]".toList =
    "[\"a \\\" b\",\"\\\\\"]".toList := by decide

end Value

end FieldQuery

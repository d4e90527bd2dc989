/-
Scanning loses nothing and says where everything stands.

The items of a text are finitely many and only the last one is terminal.  Every lexeme
is a stretch of the text at its position, positions rise, and between one item and the
next there are only blanks.  A text that is cut without error is therefore its lexemes
with blanks between them, which is `scan_lossless` read from the items back to the text.

All of this is about positions, so it is derived from `Cut`.  One induction gives one
field of `Faithful`.  Those that speak of the whole text carry along what stands in
front of the stretch, because a position counts from the beginning of the text and a
stretch is what is left of it; the size of what is in front is the position, which is
the invariant of each of them.

Positions count bytes and the recursion counts characters.  The two meet in
`byteLength_eq_utf8ByteSize` and nowhere else.
-/
import FieldQuery.Proofs.Scan.Cut
import FieldQuery.Query.Stream
import Mathlib.Data.List.Chain

namespace FieldQuery

namespace Text

/-! ### Stretches of a text

A stretch is named by the offset at which it stands.  That the text splits there in a
certain way is kept inside the existential: a statement about an item should not have to
name the characters around it.
-/

theorem byteLength_eq_utf8ByteSize (cs : List Char) :
    byteLength cs = (String.ofList cs).utf8ByteSize := by
  induction cs with
  | nil => rfl
  | cons c rest ih =>
      rw [String.ofList_cons, String.utf8ByteSize_append, String.utf8ByteSize_singleton, ← ih,
        byteLength]

/-- The piece is what the text holds from this byte offset on. -/
def StandsAt (text : String) (pos : Nat) (piece : String) : Prop :=
  ∃ before after : String, text = before ++ piece ++ after ∧ before.utf8ByteSize = pos

/-- The text has only blanks from the one byte offset up to the other. -/
def BlankBetween (text : String) (start stop : Nat) : Prop :=
  ∃ gap : String, StandsAt text start gap ∧ start + gap.utf8ByteSize = stop ∧
    ∀ c ∈ gap.toList, isBlank c = true

/-- A list of characters inside a text stands at the size of what is before it. -/
theorem standsAt_of_toList {text : String} {before piece after : List Char}
    (h : text.toList = before ++ piece ++ after) :
    StandsAt text (byteLength before) (String.ofList piece) := by
  refine ⟨String.ofList before, String.ofList after, ?_, (byteLength_eq_utf8ByteSize _).symm⟩
  rw [← String.ofList_append, ← String.ofList_append, ← h, String.ofList_toList]

theorem blankBetween_of_toList {text : String} {before gap after : List Char}
    (h : text.toList = before ++ gap ++ after) (hgap : ∀ c ∈ gap, isBlank c = true) :
    BlankBetween text (byteLength before) (byteLength before + byteLength gap) := by
  refine ⟨String.ofList gap, standsAt_of_toList h, ?_, by simpa using hgap⟩
  rw [← byteLength_eq_utf8ByteSize]

/-- Pieces with gaps in front of them, and what follows the last one. -/
def interleave (gaps pieces : List String) (last : String) : String :=
  String.join (List.zipWith (· ++ ·) gaps pieces) ++ last

end Text

namespace LexemeStream

/-! ### What an iterator gives

An iterator is known by what it answers when it is asked again and again.  The list of
its answers is finite here because the scanner stops behind a terminal item, and it is
unique because a call has one answer.
-/

/-- The items that the iterator gives until it stops. -/
inductive Gives : LexemeStream → List (Except ScanError Lexeme) → Prop
  | stopped {s : LexemeStream} (h : s.next?.1 = none) : Gives s []
  | item {s : LexemeStream} {item : Except ScanError Lexeme}
      {items : List (Except ScanError Lexeme)} (h : s.next?.1 = some item)
      (hrest : Gives s.next?.2 items) : Gives s (item :: items)

/-- What the iterator gives is determined by the stream. -/
theorem Gives.unique {s : LexemeStream} {items items' : List (Except ScanError Lexeme)}
    (h : Gives s items) (h' : Gives s items') : items = items' := by
  induction h generalizing items' with
  | stopped hnone =>
      cases h' with
      | stopped _ => rfl
      | item hsome _ => simp [hnone] at hsome
  | item hsome _ ih =>
      cases h' with
      | stopped hnone => simp [hnone] at hsome
      | item hsome' hrest' =>
          obtain rfl := Option.some.inj (hsome.symm.trans hsome')
          rw [ih hrest']

/-- The iterator gives what is pending and stops behind the last item. -/
theorem gives_pending (size : Nat) :
    ∀ (item : Except ScanError Lexeme) (items : List (Except ScanError Lexeme)),
      Gives ⟨item :: items, size, false⟩ (item :: items) := by
  intro item items
  induction items generalizing item with
  | nil =>
      exact .item rfl (.stopped rfl)
  | cons next rest ih =>
      exact .item rfl (ih next)

end LexemeStream

namespace Lexeme

/-! ### The faithful lists of items

Which item is the last and that positions rise is seen from a `Cut` by itself; what stands in
front of its stretch plays no part in it.
-/

/-- What a list of items says about the text that it was cut from. -/
structure Faithful (text : String) (items : List (Except ScanError Lexeme)) : Prop where
  /-- The last item and no other is terminal. -/
  terminal : ∃ init last, items = init ++ [last] ∧ isTerminal last = true ∧
    ∀ item ∈ init, isTerminal item = false
  /-- A lexeme is not empty and is what the text holds at its position. -/
  standsAt : ∀ l, .ok l ∈ items → l.token ≠ .eof →
    l.text ≠ "" ∧ Text.StandsAt text l.pos l.text
  /-- Positions rise. -/
  ascending : (items.map itemPos).Pairwise (· < ·)
  /-- There are only blanks before the first item. -/
  blankBefore : ∀ first ∈ items.head?, Text.BlankBetween text 0 (itemPos first)
  /-- There are only blanks between one item and the next. -/
  blankBetween : items.IsChain fun a b => Text.BlankBetween text (itemStop a) (itemPos b)
  /-- The end stands behind the last byte and holds nothing. -/
  atEnd : ∀ l, .ok l ∈ items → l.token = .eof → l = ⟨.eof, text.utf8ByteSize, ""⟩

namespace Cut

variable {pos : Nat} {cs : List Char} {items : List (Except ScanError Lexeme)}

theorem terminal (h : Cut pos cs items) : ∃ init last, items = init ++ [last] ∧
    isTerminal last = true ∧ ∀ item ∈ init, isTerminal item = false := by
  induction h with
  | atEnd _ => exact ⟨[], _, rfl, rfl, by simp⟩
  | error _ _ _ => exact ⟨[], _, rfl, rfl, by simp⟩
  | @lexeme _ _ _ _ l _ _ htoken _ _ _ _ ih =>
      obtain ⟨init, last, rfl, hlast, hinit⟩ := ih
      refine ⟨.ok l :: init, last, rfl, hlast, ?_⟩
      intro item hitem
      rcases List.mem_cons.mp hitem with rfl | hmem
      · exact beq_false_of_ne htoken
      · exact hinit item hmem

theorem le_itemPos (h : Cut pos cs items) : ∀ item ∈ items, pos ≤ itemPos item := by
  induction h with
  | atEnd _ =>
      intro item hitem
      obtain rfl := List.mem_singleton.mp hitem
      exact Nat.le_add_right _ _
  | @error _ _ _ e _ _ hpos =>
      intro item hitem
      obtain rfl := List.mem_singleton.mp hitem
      show _ ≤ e.pos
      omega
  | @lexeme _ _ _ _ l _ _ _ hpos _ _ _ ih =>
      intro item hitem
      rcases List.mem_cons.mp hitem with rfl | hmem
      · show _ ≤ l.pos
        omega
      · have := ih item hmem
        omega

theorem byteLength_pos {piece : List Char} (h : piece ≠ []) : 0 < Text.byteLength piece := by
  obtain ⟨c, rest, rfl⟩ := List.exists_cons_of_ne_nil h
  have := c.utf8Size_pos
  simp only [Text.byteLength]
  omega

theorem ascending (h : Cut pos cs items) : (items.map itemPos).Pairwise (· < ·) := by
  induction h with
  | atEnd _ => exact List.pairwise_singleton _ _
  | error _ _ _ => exact List.pairwise_singleton _ _
  | @lexeme _ _ piece _ l _ _ _ _ hpiece _ hrest ih =>
      refine List.pairwise_cons.mpr ⟨?_, ih⟩
      intro p hp
      obtain ⟨item, hitem, rfl⟩ := List.mem_map.mp hp
      have hle := hrest.le_itemPos item hitem
      have hlt := byteLength_pos hpiece
      show l.pos < itemPos item
      omega

/-! ### Where the items stand in the text

From here on the stretch is the rest of a whole text behind the characters `before`.
-/

variable {text : String}

theorem standsAt (before : List Char) (h : Cut pos cs items) (htext : text.toList = before ++ cs)
    (hbefore : Text.byteLength before = pos) : ∀ l, .ok l ∈ items → l.token ≠ .eof →
      l.text ≠ "" ∧ Text.StandsAt text l.pos l.text := by
  induction h generalizing before with
  | atEnd _ =>
      intro l hl htoken
      obtain rfl := Except.ok.inj (List.mem_singleton.mp hl)
      exact absurd rfl htoken
  | error _ _ _ =>
      intro l hl
      simp at hl
  | @lexeme pos gap piece rest l _ _ _ hpos hpiece hltext _ ih =>
      have hsplit : text.toList = (before ++ gap) ++ piece ++ rest := by
        rw [htext]
        simp only [List.append_assoc]
      have hsize : Text.byteLength (before ++ gap) = l.pos := by
        rw [Text.byteLength_append, hbefore, hpos]
      intro l' hl' htoken'
      rcases List.mem_cons.mp hl' with heq | hmem
      · obtain rfl := Except.ok.inj heq
        refine ⟨?_, ?_⟩
        · rw [hltext]
          simpa using hpiece
        · rw [hltext, ← hsize]
          exact Text.standsAt_of_toList hsplit
      · refine ih (before ++ gap ++ piece) hsplit ?_ l' hmem htoken'
        rw [Text.byteLength_append, hsize]

theorem blankBefore (before : List Char) (h : Cut pos cs items)
    (htext : text.toList = before ++ cs)
    (hbefore : Text.byteLength before = pos) :
    ∀ first ∈ items.head?, Text.BlankBetween text pos (itemPos first) := by
  subst hbefore
  cases h with
  | atEnd hgap =>
      intro first hfirst
      obtain rfl := Option.some.inj hfirst
      have hall : text.toList = before ++ cs ++ [] := by rw [htext, List.append_nil]
      exact Text.blankBetween_of_toList hall hgap
  | error hgap _ hpos =>
      intro first hfirst
      obtain rfl := Option.some.inj hfirst
      show Text.BlankBetween text _ (ScanError.pos _)
      rw [hpos]
      exact Text.blankBetween_of_toList (by rw [htext, List.append_assoc]) hgap
  | @lexeme _ gap piece rest l _ hgap _ hpos _ _ _ =>
      intro first hfirst
      obtain rfl := Option.some.inj hfirst
      show Text.BlankBetween text _ l.pos
      rw [hpos]
      have hall : text.toList = before ++ gap ++ (piece ++ rest) := by
        rw [htext]
        simp only [List.append_assoc]
      exact Text.blankBetween_of_toList hall hgap

theorem blankBetween (before : List Char) (h : Cut pos cs items)
    (htext : text.toList = before ++ cs)
    (hbefore : Text.byteLength before = pos) :
    items.IsChain fun a b => Text.BlankBetween text (itemStop a) (itemPos b) := by
  induction h generalizing before with
  | atEnd _ => exact .singleton _
  | error _ _ _ => exact .singleton _
  | @lexeme pos gap piece rest l _ _ _ hpos _ hltext hrest ih =>
      have hsplit : text.toList = (before ++ gap ++ piece) ++ rest := by
        rw [htext]
        simp only [List.append_assoc]
      have hsize : Text.byteLength (before ++ gap ++ piece) = l.pos + Text.byteLength piece := by
        rw [Text.byteLength_append, Text.byteLength_append, hbefore, hpos]
      refine (ih _ hsplit hsize).cons ?_
      have hstop : itemStop (.ok l) = l.pos + Text.byteLength piece := by
        show l.pos + l.text.utf8ByteSize = _
        rw [hltext, ← Text.byteLength_eq_utf8ByteSize]
      intro next hnext
      rw [hstop]
      exact hrest.blankBefore _ hsplit hsize next hnext

theorem eq_atEnd (before : List Char) (h : Cut pos cs items)
    (htext : text.toList = before ++ cs)
    (hbefore : Text.byteLength before = pos) : ∀ l, .ok l ∈ items → l.token = .eof →
      l = ⟨.eof, text.utf8ByteSize, ""⟩ := by
  induction h generalizing before with
  | @atEnd pos gap _ =>
      intro l hl _
      obtain rfl := Except.ok.inj (List.mem_singleton.mp hl)
      have hsize : text.utf8ByteSize = pos + Text.byteLength gap := by
        rw [← String.ofList_toList (s := text), htext, ← Text.byteLength_eq_utf8ByteSize,
          Text.byteLength_append, hbefore]
      rw [hsize]
      rfl
  | error _ _ _ =>
      intro l hl
      simp at hl
  | @lexeme pos gap piece rest l _ _ htoken hpos _ _ _ ih =>
      intro l' hl' htoken'
      rcases List.mem_cons.mp hl' with heq | hmem
      · obtain rfl := Except.ok.inj heq
        exact absurd htoken' htoken
      · refine ih (before ++ gap ++ piece) ?_ ?_ l' hmem htoken'
        · rw [htext]
          simp only [List.append_assoc]
        · rw [Text.byteLength_append, Text.byteLength_append, hbefore, hpos]

end Cut

/-- What the scanner says about a text is right. -/
theorem faithful_scan (text : String) : Faithful text (scan text) := by
  have hcut : Cut 0 text.toList (scan text) := cut_scanFrom 0 text.toList
  exact {
    terminal := hcut.terminal
    standsAt := hcut.standsAt [] rfl rfl
    ascending := hcut.ascending
    blankBefore := hcut.blankBefore [] rfl rfl
    blankBetween := hcut.blankBetween [] rfl rfl
    atEnd := hcut.eq_atEnd [] rfl rfl }

/-- What has something behind it is not the end. -/
theorem ne_eof_of_scan {text : String} {front : List Lexeme} {item : Except ScanError Lexeme}
    {behind : List (Except ScanError Lexeme)} (h : scan text = front.map .ok ++ item :: behind) :
    ∀ l ∈ front, l.token ≠ .eof := by
  obtain ⟨init, last, hsplit, -, hinit⟩ := (faithful_scan text).terminal
  have hfront : init = front.map .ok ++ (item :: behind).dropLast := by
    rw [← List.dropLast_append_of_ne_nil (List.cons_ne_nil item behind), ← h, hsplit,
      List.dropLast_concat]
  intro l hl
  have hitem : isTerminal (.ok l) = false := by
    refine hinit (.ok l) ?_
    rw [hfront]
    exact List.mem_append_left _ (List.mem_map_of_mem hl)
  exact beq_eq_false_iff_ne.mp hitem

/-- Where a text is cut without error, the end is the last item and no other. -/
theorem ends_of_scan {text : String} {lexemes : List Lexeme} {last : Lexeme}
    (h : scan text = lexemes.map .ok ++ [.ok last]) :
    (∀ l ∈ lexemes, l.token ≠ .eof) ∧ last = ⟨.eof, text.utf8ByteSize, ""⟩ := by
  have hfaithful := faithful_scan text
  obtain ⟨init, final, hsplit, hterminal, -⟩ := hfaithful.terminal
  rw [h] at hsplit
  obtain ⟨-, hfinal⟩ := List.append_inj' hsplit rfl
  obtain rfl := (List.cons.inj hfinal).1
  exact ⟨ne_eof_of_scan h, hfaithful.atEnd last (by rw [h]; simp) (beq_iff_eq.mp hterminal)⟩

/-! ### The text from its lexemes

The gaps of a `Cut` are its blanks.  Collecting them gives the text back, and it is here
that a list without an error is needed: what stands behind an error is in no item.
-/

/-- Characters cut without error are the texts of their lexemes with blanks between them. -/
theorem Cut.interleave {pos : Nat} {cs : List Char} {items : List (Except ScanError Lexeme)}
    (h : Cut pos cs items) : ∀ (lexemes : List Lexeme) (last : Lexeme),
      items = lexemes.map .ok ++ [.ok last] → last.token = .eof →
      ∃ gaps : List String, gaps.length = lexemes.length ∧
        (∀ gap ∈ gaps, ∀ c ∈ gap.toList, Text.isBlank c = true) ∧
        ∃ final : String, (∀ c ∈ final.toList, Text.isBlank c = true) ∧
          String.ofList cs = Text.interleave gaps (lexemes.map text) final := by
  induction h with
  | @atEnd _ gap hgap =>
      intro lexemes last hitems _
      have hnil : lexemes = [] := by
        have := congrArg List.length hitems
        simpa using this
      subst hnil
      exact ⟨[], rfl, by simp, String.ofList gap, by simpa using hgap, by
        simp [Text.interleave, String.join]⟩
  | error _ _ _ =>
      intro lexemes last hitems _
      cases lexemes <;> simp at hitems
  | @lexeme _ gap piece rest l items hgap htoken _ _ hltext _ ih =>
      intro lexemes last hitems hlast
      cases lexemes with
      | nil =>
          simp only [List.map_nil, List.nil_append, List.cons.injEq, Except.ok.injEq] at hitems
          exact absurd (hitems.1 ▸ hlast) htoken
      | cons l' lexemes =>
          simp only [List.map_cons, List.cons_append, List.cons.injEq, Except.ok.injEq] at hitems
          obtain ⟨rfl, hrest⟩ := hitems
          obtain ⟨gaps, hlength, hblank, final, hfinal, htext⟩ := ih lexemes last hrest hlast
          refine ⟨String.ofList gap :: gaps, by simp [hlength], ?_, final, hfinal, ?_⟩
          · intro g hg
            rcases List.mem_cons.mp hg with rfl | hmem
            · simpa using hgap
            · exact hblank g hmem
          · rw [String.ofList_append, String.ofList_append, htext, ← hltext]
            simp [Text.interleave, String.join_cons, String.append_assoc]

/--
**Scanning is lossless and well positioned.**  The iterator gives finitely many items, which
are faithful to the text; and if no error is among them, the text is its lexemes with blanks
between them.
-/
theorem scan_lossless (text : String) :
    ∃ items, (∀ items', (LexemeStream.ofText text).Gives items' ↔ items' = items) ∧
      Faithful text items ∧
      ∀ (lexemes : List Lexeme) (last : Lexeme), items = lexemes.map .ok ++ [.ok last] →
        ∃ gaps : List String, gaps.length = lexemes.length ∧
          (∀ gap ∈ gaps, ∀ c ∈ gap.toList, Text.isBlank c = true) ∧
          ∃ final : String, (∀ c ∈ final.toList, Text.isBlank c = true) ∧
            text = Text.interleave gaps (lexemes.map Lexeme.text) final := by
  have hcut : Cut 0 text.toList (scan text) := cut_scanFrom 0 text.toList
  have hfaithful := faithful_scan text
  refine ⟨scan text, ?_, hfaithful, ?_⟩
  · have hgives : (LexemeStream.ofText text).Gives (scan text) := by
      obtain ⟨init, last, hitems, -⟩ := hfaithful.terminal
      obtain ⟨first, rest, hcons⟩ : ∃ first rest, scan text = first :: rest := by
        cases hscan : scan text with
        | nil => simp [hscan] at hitems
        | cons first rest => exact ⟨first, rest, rfl⟩
      unfold LexemeStream.ofText
      rw [hcons]
      exact LexemeStream.gives_pending _ first rest
    intro items'
    constructor
    · intro hgives'
      exact hgives'.unique hgives
    · intro heq
      rw [heq]
      exact hgives
  · intro lexemes last hitems
    have hlast : last.token = .eof := by rw [(ends_of_scan hitems).2]
    have := hcut.interleave lexemes last hitems hlast
    rwa [String.ofList_toList] at this

-- positions count bytes, and an error stands where its lexeme would begin
example : scan " .é== =" = [.ok ⟨.field, 1, ".é"⟩, .ok ⟨.operator (.compare .eq), 4, "=="⟩,
    .error (.loneEquals 7)] := by
  cbv

end Lexeme

end FieldQuery

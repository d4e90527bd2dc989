/-
The items of a lookahead.

A scanner goes on giving items for ever, the end of its text again and again once it has
finished, so what it has still to give is an infinite stream, `Scanner.items`.  What a
lookahead has still to give is the lexeme that it holds, if any, and then this stream.
Taking takes the first of these items off, looking takes off none but an error, and
giving back puts a lexeme in front if none is held: `take_items`, `look_items` and
`giveBack_items` are all that the parser needs to know.

That looking takes off an error is no accident of the stream.  An error is handed on to
the caller and is not held, so it is met once.
-/
import FieldQuery.Proofs.Scan.Interleaved
import FieldQuery.Query.Lookahead
import Mathlib.Data.Stream.Init

namespace FieldQuery

open Stream'

/-- The end of a text of this size, for ever. -/
def Lexeme.ends (size : Nat) : Stream' (Except ScanError Lexeme) :=
  Stream'.const (.ok (atEnd size))

theorem Lexeme.ends_eq (size : Nat) : ends size = Stream'.cons (.ok (atEnd size)) (ends size) :=
  Stream'.const_eq _

/-- All items of a text, and then its end for ever. -/
def Lexeme.stream (text : String) : Stream' (Except ScanError Lexeme) :=
  scan text ++ₛ ends text.utf8ByteSize

namespace Scanner

/-- What a scanner gives when it is asked again and again. -/
def items : Scanner → Stream' (Except ScanError Lexeme) := Stream'.corec' take

theorem items_eq_cons (s : Scanner) : s.items = Stream'.cons s.take.1 s.take.2.items :=
  Stream'.corec'_eq take s

/-- Taking gives the first of the items that are left, or else the end of the text. -/
theorem take_pending (s : Scanner) :
    s.take.1 = s.pending.headD (.ok (Lexeme.atEnd s.size)) ∧
      s.take.2.pending = s.pending.tail ∧ s.take.2.size = s.size := by
  have htake := s.take_stream
  rw [stream, LexemeStream.take] at htake
  cases hpending : s.pending with
  | nil =>
      rw [hpending] at htake
      obtain ⟨hitem, hleft⟩ := Prod.mk.inj htake
      obtain ⟨hrest, hsize, -⟩ := LexemeStream.mk.inj hleft
      exact ⟨hitem.symm, hrest.symm, hsize.symm⟩
  | cons item rest =>
      rw [hpending] at htake
      obtain ⟨hitem, hleft⟩ := Prod.mk.inj htake
      obtain ⟨hrest, hsize, -⟩ := LexemeStream.mk.inj hleft
      exact ⟨hitem.symm, hrest.symm, hsize.symm⟩

/-- A scanner gives the items that are left and then the end of its text for ever. -/
theorem items_eq (s : Scanner) : s.items = s.pending ++ₛ Lexeme.ends s.size := by
  funext n
  induction n generalizing s with
  | zero =>
      rw [items_eq_cons, s.take_pending.1]
      cases s.pending <;> rfl
  | succ n ih =>
      obtain ⟨-, hpending, hsize⟩ := s.take_pending
      rw [items_eq_cons]
      show s.take.2.items n = _
      rw [ih, hsize, hpending]
      cases s.pending <;> rfl

/-- A scanner that has given nothing gives all items of its text. -/
theorem items_ofText (text : String) : (ofText text).items = Lexeme.stream text := by
  have hsize : (ofText text).size = text.utf8ByteSize := by
    rw [ofText, Text.byteLength_eq_utf8ByteSize, String.ofList_toList]
  rw [items_eq, hsize]
  rfl

end Scanner

namespace Lookahead

/-- The item that is held, if any. -/
def held (b : Lookahead) : List (Except ScanError Lexeme) := b.held?.toList.map .ok

/-- What a lookahead has still to give. -/
def items (b : Lookahead) : Stream' (Except ScanError Lexeme) := b.held ++ₛ b.scanner.items

theorem items_ofText (text : String) : (ofText text).items = Lexeme.stream text :=
  Scanner.items_ofText text

theorem items_of_none {b : Lookahead} (h : b.held? = none) : b.items = b.scanner.items := by
  rw [items, held, h]
  rfl

/-- Taking gives the first item and leaves the others; nothing is held after it. -/
theorem take_items (b : Lookahead) :
    b.take.1 = b.items.head ∧ b.take.2.items = b.items.tail ∧ b.take.2.held? = none := by
  obtain ⟨scanner, held?⟩ := b
  cases held? with
  | some l => exact ⟨rfl, rfl, rfl⟩
  | none =>
      have hitems : (Lookahead.mk scanner none).items =
          Stream'.cons scanner.take.1 scanner.take.2.items := scanner.items_eq_cons
      rw [hitems]
      exact ⟨rfl, rfl, rfl⟩

/-- Looking shows the first item.  A lexeme is left where it is, an error is not. -/
theorem look_items (b : Lookahead) :
    b.look.1 = b.items.head ∧
      ((∃ l, b.items.head = .ok l ∧ b.look.2.items = b.items) ∨
        (∃ e, b.items.head = .error e) ∧ b.look.2.items = b.items.tail) := by
  obtain ⟨scanner, held?⟩ := b
  cases held? with
  | some l => exact ⟨rfl, .inl ⟨l, rfl, rfl⟩⟩
  | none =>
      have hitems : (Lookahead.mk scanner none).items =
          Stream'.cons scanner.take.1 scanner.take.2.items := scanner.items_eq_cons
      rw [hitems, look]
      cases htake : scanner.take with
      | mk item rest =>
          cases item with
          | ok l => exact ⟨rfl, .inl ⟨l, rfl, rfl⟩⟩
          | error e => exact ⟨rfl, .inr ⟨⟨e, rfl⟩, rfl⟩⟩

/-- A lexeme that is given back while none is held comes first again. -/
theorem giveBack_items {b : Lookahead} (h : b.held? = none) (l : Lexeme) :
    (b.giveBack l).items = Stream'.cons (.ok l) b.items := by
  rw [items_of_none h]
  rfl

end Lookahead

end FieldQuery

/-
How a text is cut into lexemes.

`Cut` says of a list of items that it covers a stretch of characters: blanks, then a
lexeme, then blanks again, and so on, up to the end or to an error.  It fixes the
position of every item and leaves the kinds open, so statements about positions and
coverage follow from it by induction and see nothing of the scanner.  The kinds are said
of the lexemes one by one, `longest_of_mem_scanFrom`: each stands in the text as a
longest one.

Both are inductions over the recursion of the scanner, which drops the blanks, takes one
step and goes on behind it.  Of the step they need that it answers with a longest lexeme
or a fault: a longest lexeme is not empty, so the recursion moves on, and it is no end,
so only the last item is terminal.
-/
import FieldQuery.Proofs.Scan.Kinds

namespace FieldQuery

namespace Lexeme

/-! ### Items

A scanned text is a list of lexemes and errors.  An item ends the list when it is an error or
the lexeme `eof`.
-/

/-- The position of a lexeme or an error. -/
def itemPos : Except ScanError Lexeme → Nat
  | .ok l => l.pos
  | .error e => e.pos

/-- The offset behind an item; an error covers nothing. -/
def itemStop : Except ScanError Lexeme → Nat
  | .ok l => l.pos + l.text.utf8ByteSize
  | .error e => e.pos

/-- Whether nothing follows the item. -/
def isTerminal : Except ScanError Lexeme → Bool
  | .ok l => l.token == .eof
  | .error _ => true

/-! ### Covering a stretch of characters

A stretch is cut in front of whatever follows it, and nothing is said of that.  An error
covers nothing: the stretch behind its position is there but is cut no further.
-/

/-- The items cover the characters, which begin at this offset. -/
inductive Cut : Nat → List Char → List (Except ScanError Lexeme) → Prop
  /-- Only blanks are left. -/
  | atEnd {pos : Nat} {gap : List Char} (hgap : ∀ c ∈ gap, Text.isBlank c = true) :
      Cut pos gap [.ok (Lexeme.atEnd (pos + Text.byteLength gap))]
  /-- What follows the blanks is no lexeme. -/
  | error {pos : Nat} {gap rest : List Char} {e : ScanError}
      (hgap : ∀ c ∈ gap, Text.isBlank c = true) (hrest : rest ≠ [])
      (hpos : e.pos = pos + Text.byteLength gap) : Cut pos (gap ++ rest) [.error e]
  /-- A lexeme follows the blanks. -/
  | lexeme {pos : Nat} {gap piece rest : List Char} {l : Lexeme}
      {items : List (Except ScanError Lexeme)}
      (hgap : ∀ c ∈ gap, Text.isBlank c = true) (htoken : l.token ≠ .eof)
      (hpos : l.pos = pos + Text.byteLength gap) (hpiece : piece ≠ [])
      (htext : l.text = String.ofList piece)
      (hrest : Cut (l.pos + Text.byteLength piece) rest items) :
      Cut pos (gap ++ piece ++ rest) (.ok l :: items)

/-- The scanner covers every stretch of characters. -/
theorem cut_scanFrom (pos : Nat) (cs : List Char) : Cut pos cs (scanFrom pos cs) := by
  fun_induction scanFrom pos cs with
  | case1 pos cs hcut =>
      have hblank : ∀ c ∈ cs, Text.isBlank c = true := by
        simpa [List.dropWhile_eq_nil_iff] using hcut
      exact .atEnd hblank
  | case2 pos cs first rest hcut start e hmunch =>
      have hcs : cs = cs.takeWhile Text.isBlank ++ first :: rest := by
        rw [← hcut, List.takeWhile_append_dropWhile]
      rw [hcs]
      have hfault := fault_of_munch hmunch
      exact .error (fun c hc => List.mem_takeWhile_imp hc) hfault.ne_nil hfault.pos_eq
  | case3 pos cs first rest hcut start token more hmunch ih =>
      obtain ⟨tail, rfl, hlongest⟩ := longest_of_munch hmunch
      have hcs : cs = cs.takeWhile Text.isBlank ++ (first :: more) ++ tail := by
        rw [List.append_assoc, List.cons_append, ← hcut, List.takeWhile_append_dropWhile]
      rw [List.drop_left] at ih ⊢
      rw [hcs]
      exact .lexeme (l := ⟨token, start, _⟩) (fun c hc => List.mem_takeWhile_imp hc)
        hlongest.ne_eof rfl hlongest.ne_nil rfl ih

/-! ### Longest lexemes

`Cut` leaves the kinds open.  What the kinds are is said of each lexeme by itself and in the text
that it stands in, since what follows a lexeme decides whether it could have gone on.
-/

/-- Every lexeme of a text stands in it as a longest one. -/
theorem longest_of_mem_scanFrom (pos : Nat) (cs : List Char) :
    ∀ l, .ok l ∈ scanFrom pos cs → l.token ≠ .eof → ∃ before after,
      cs = before ++ (l.text.toList ++ after) ∧ pos + Text.byteLength before = l.pos ∧
        Longest after l.text.toList l.token := by
  fun_induction scanFrom pos cs with
  | case1 pos cs hcut =>
      intro l hl htoken
      obtain rfl := Except.ok.inj (List.mem_singleton.mp hl)
      exact absurd rfl htoken
  | case2 pos cs first rest hcut start e hmunch =>
      intro l hl
      simp at hl
  | case3 pos cs first rest hcut start token more hmunch ih =>
      obtain ⟨behind, rfl, hlongest⟩ := longest_of_munch hmunch
      rw [List.drop_left] at ih ⊢
      have hcs : cs = cs.takeWhile Text.isBlank ++ (first :: more ++ behind) := by
        rw [List.cons_append, ← hcut, List.takeWhile_append_dropWhile]
      intro l hl htoken
      rcases List.mem_cons.mp hl with heq | hmem
      · obtain rfl := Except.ok.inj heq
        refine ⟨cs.takeWhile Text.isBlank, behind, ?_, rfl, ?_⟩
        · rw [String.toList_ofList]
          exact hcs
        · rw [String.toList_ofList]
          exact hlongest
      · obtain ⟨before, after, rfl, hpos, hafter⟩ := ih l hmem htoken
        refine ⟨cs.takeWhile Text.isBlank ++ (first :: more ++ before), after, ?_, ?_, hafter⟩
        · rw [List.append_assoc, List.append_assoc]
          exact hcs
        · rw [Text.byteLength_append, Text.byteLength_append, ← hpos]
          omega

end Lexeme

end FieldQuery

/-
Strings that are read.

The reader takes a string apart into pieces first and joins these afterwards, because half a
character must wait for the other half.  Both steps are partial, and a string is read exactly if
neither fails: `readPieces_iff` says that this is what the grammar asks for.

Each step of reading pieces is one of four, `readPieces_cases`.  The obvious induction on the text
does not go through in the direction from the reader to the grammar: two halves are two pieces and
one character, so the text goes down by twelve characters at once.  The induction is on the length
of the text instead.

Writing stays inside the grammar.  A character is written as it is, after a backslash, or as four
hexadecimal digits, and only characters below the halves are written by number: `quoted_escaped`.
-/
import FieldQuery.Json.Text
import FieldQuery.Proofs.Json.Grammar

namespace FieldQuery.Json

variable {c letter : Char} {body text cs rest : List Char} {pieces : List Piece} {n : Nat}

/-! ### Steps of the reader

Each piece is begun by its first character, and a backslash looks at one more.
`PieceStep` lists the cases with what they leave, so that no later proof has to look at
the characters again.
-/

/-- A letter after a backslash is read as the character that it stands for. -/
theorem readPieces_escape (h : escape? letter = some c) (rest : List Char) :
    readPieces ('\\' :: letter :: rest) =
      (readPieces rest).map fun (pieces, rest) => (.char c :: pieces, rest) := by
  have hletter : letter ≠ 'u' := by
    rintro rfl
    simp [escape?] at h
  rw [readPieces, h]
  · rfl
  · intro a b c d more heq _
    exact hletter heq

theorem readPieces_unit {a b c d : Char} (h : hexValue? [a, b, c, d] = some n)
    (rest : List Char) :
    readPieces ('\\' :: 'u' :: a :: b :: c :: d :: rest) =
      (readPieces rest).map fun (pieces, rest) => (.unit n :: pieces, rest) := by
  rw [readPieces, h]
  rfl

/-- A character that is neither a mark nor a backslash is read as itself. -/
theorem readPieces_plain (hmark : c ≠ '"') (hbackslash : c ≠ '\\') (hcontrol : 0x20 ≤ c.toNat)
    (rest : List Char) :
    readPieces (c :: rest) =
      (readPieces rest).map fun (pieces, rest) => (.char c :: pieces, rest) := by
  rw [readPieces, if_neg (Nat.not_lt.mpr hcontrol)]
  · exact hmark
  · intro a b c d more hc
    exact absurd hc hbackslash
  · intro letter more hc
    exact absurd hc hbackslash

/-- What the reader can do with text that it does not refuse. -/
inductive PieceStep : List Char → List Piece → List Char → Prop where
  | mark (rest : List Char) : PieceStep ('"' :: rest) [] rest
  | plain {c : Char} {cs rest : List Char} {pieces : List Piece} (hmark : c ≠ '"')
      (hbackslash : c ≠ '\\') (hcontrol : 0x20 ≤ c.toNat)
      (hread : readPieces cs = some (pieces, rest)) : PieceStep (c :: cs) (.char c :: pieces) rest
  | escape {letter c : Char} {cs rest : List Char} {pieces : List Piece}
      (hletter : escape? letter = some c) (hread : readPieces cs = some (pieces, rest)) :
      PieceStep ('\\' :: letter :: cs) (.char c :: pieces) rest
  | unit {a b c d : Char} {n : Nat} {cs rest : List Char} {pieces : List Piece}
      (hvalue : hexValue? [a, b, c, d] = some n) (hread : readPieces cs = some (pieces, rest)) :
      PieceStep ('\\' :: 'u' :: a :: b :: c :: d :: cs) (.unit n :: pieces) rest

/-- Every text that is read is read by one of these steps. -/
theorem readPieces_cases (h : readPieces cs = some (pieces, rest)) : PieceStep cs pieces rest := by
  unfold readPieces at h
  split at h
  · simp at h
  · obtain ⟨rfl, rfl⟩ := Prod.mk.inj (Option.some.inj h)
    exact .mark _
  · obtain ⟨n, hvalue, hmap⟩ := Option.bind_eq_some_iff.mp h
    obtain ⟨⟨pieces', rest'⟩, hread, heq⟩ := Option.map_eq_some_iff.mp hmap
    obtain ⟨rfl, rfl⟩ := Prod.mk.inj heq
    exact .unit hvalue hread
  · obtain ⟨c, hletter, hmap⟩ := Option.bind_eq_some_iff.mp h
    obtain ⟨⟨pieces', rest'⟩, hread, heq⟩ := Option.map_eq_some_iff.mp hmap
    obtain ⟨rfl, rfl⟩ := Prod.mk.inj heq
    exact .escape hletter hread
  · rename_i c more hmark hunit hletter
    split at h
    · simp at h
    · rename_i hcontrol
      obtain ⟨⟨pieces', rest'⟩, hread, heq⟩ := Option.map_eq_some_iff.mp h
      obtain ⟨rfl, rfl⟩ := Prod.mk.inj heq
      refine .plain hmark (fun hbackslash => ?_) (Nat.not_lt.mp hcontrol) hread
      -- a backslash that ends the text has nothing to be read behind it
      cases more with
      | nil => simp [readPieces] at hread
      | cons letter later => exact hletter letter later hbackslash rfl

/-! ### Joining pieces

A unit by itself is a character unless it is half of one.  An upper half takes the unit
behind it along, whatever was written between the digits of the two.
-/

/-- A unit that is no half stands for a character of its own. -/
theorem joinPieces_unit (h : n < 0xd800 ∨ 0xe000 ≤ n) (pieces : List Piece) :
    joinPieces (.unit n :: pieces) = (joinPieces pieces).map (Char.ofNat n :: ·) := by
  have hhalf : ¬(0xd800 ≤ n ∧ n < 0xe000) := by omega
  cases pieces with
  | nil => simp [joinPieces, hhalf]
  | cons piece more =>
      cases piece with
      | char c => simp [joinPieces, hhalf]
      | unit low => rw [joinPieces, if_neg (by omega), if_neg (by omega)]

/-- A unit is one of its own, or an upper half in front of a lower one. -/
theorem joinPieces_unit_cases (h : joinPieces (.unit n :: pieces) = some text) :
    ((n < 0xd800 ∨ 0xe000 ≤ n) ∧
        ∃ later, joinPieces pieces = some later ∧ text = Char.ofNat n :: later) ∨
      (0xd800 ≤ n ∧ n < 0xdc00) ∧ ∃ low more later, pieces = .unit low :: more ∧
        (0xdc00 ≤ low ∧ low < 0xe000) ∧ joinPieces more = some later ∧
        text = Char.ofNat (0x10000 + (n - 0xd800) * 0x400 + (low - 0xdc00)) :: later := by
  by_cases hhalf : n < 0xd800 ∨ 0xe000 ≤ n
  · rw [joinPieces_unit hhalf] at h
    obtain ⟨later, hlater, rfl⟩ := Option.map_eq_some_iff.mp h
    exact .inl ⟨hhalf, later, hlater, rfl⟩
  · have hnone : 0xd800 ≤ n ∧ n < 0xe000 := by omega
    cases pieces with
    | nil => simp [joinPieces, hnone] at h
    | cons piece more =>
        cases piece with
        | char c => simp [joinPieces, hnone] at h
        | unit low =>
            rw [joinPieces] at h
            split at h
            · rename_i hhigh
              split at h
              · rename_i hlow
                obtain ⟨later, hlater, rfl⟩ := Option.map_eq_some_iff.mp h
                exact .inr ⟨hhigh, low, more, later, rfl, hlow, hlater, rfl⟩
              · simp at h
            · rw [if_pos (by omega)] at h
              simp at h

/-! ### The grammar of strings -/

/-- What the grammar allows is read up to the closing mark. -/
theorem Quoted.exists_readPieces (h : Quoted body text) (rest : List Char) :
    ∃ pieces, readPieces (body ++ '"' :: rest) = some (pieces, rest) ∧
      joinPieces pieces = some text := by
  induction h with
  | nil => exact ⟨[], rfl, rfl⟩
  | plain hmark hbackslash hcontrol hbody ih =>
      obtain ⟨pieces, hread, hjoin⟩ := ih
      refine ⟨_, by rw [List.cons_append, readPieces_plain hmark hbackslash hcontrol, hread]; rfl,
        ?_⟩
      rw [joinPieces, hjoin]
      rfl
  | escape hletter hbody ih =>
      obtain ⟨pieces, hread, hjoin⟩ := ih
      refine ⟨_, by rw [List.cons_append, List.cons_append, readPieces_escape hletter, hread]; rfl,
        ?_⟩
      rw [joinPieces, hjoin]
      rfl
  | unit hvalue hwhole hbody ih =>
      obtain ⟨pieces, hread, hjoin⟩ := ih
      refine ⟨_, (readPieces_unit hvalue _).trans (congrArg _ hread), ?_⟩
      rw [joinPieces_unit hwhole, hjoin]
      rfl
  | pair hvalue hhigh hvalue' hlow hbody ih =>
      obtain ⟨pieces, hread, hjoin⟩ := ih
      have hlower := (readPieces_unit hvalue' _).trans (congrArg _ hread)
      refine ⟨_, (readPieces_unit hvalue _).trans (congrArg _ hlower), ?_⟩
      rw [joinPieces, if_pos hhigh, if_pos hlow, hjoin]
      rfl

/-- What is read is what the grammar allows.  The induction is on a bound of the length. -/
theorem exists_quoted (bound : Nat) (hbound : cs.length ≤ bound)
    (hread : readPieces cs = some (pieces, rest)) (hjoin : joinPieces pieces = some text) :
    ∃ body, cs = body ++ '"' :: rest ∧ Quoted body text := by
  induction bound generalizing cs pieces text with
  | zero =>
      obtain rfl := List.length_eq_zero_iff.mp (Nat.le_zero.mp hbound)
      simp [readPieces] at hread
  | succ bound ih =>
      cases readPieces_cases hread with
      | mark =>
          obtain rfl := Option.some.inj hjoin
          exact ⟨[], rfl, .nil⟩
      | plain hmark hbackslash hcontrol hread =>
          obtain ⟨later, hlater, rfl⟩ := Option.map_eq_some_iff.mp hjoin
          obtain ⟨body, rfl, hbody⟩ := ih (Nat.le_of_succ_le_succ hbound) hread hlater
          exact ⟨_ :: body, rfl, .plain hmark hbackslash hcontrol hbody⟩
      | escape hletter hread =>
          obtain ⟨later, hlater, rfl⟩ := Option.map_eq_some_iff.mp hjoin
          rw [List.length_cons, List.length_cons] at hbound
          obtain ⟨body, rfl, hbody⟩ := ih (by omega) hread hlater
          exact ⟨_ :: _ :: body, rfl, .escape hletter hbody⟩
      | unit hvalue hread =>
          simp only [List.length_cons] at hbound
          rcases joinPieces_unit_cases hjoin with
            ⟨hwhole, later, hlater, rfl⟩ | ⟨hhigh, low, more, later, rfl, hlow, hlater, rfl⟩
          · obtain ⟨body, rfl, hbody⟩ := ih (by omega) hread hlater
            exact ⟨_, rfl, .unit hvalue hwhole hbody⟩
          · -- the other half is the next step
            cases readPieces_cases hread with
            | unit hvalue' hread =>
                simp only [List.length_cons] at hbound
                obtain ⟨body, rfl, hbody⟩ := ih (by omega) hread hlater
                exact ⟨_, rfl, .pair hvalue hhigh hvalue' hlow hbody⟩

/-- **The strings that are read are those of the grammar.** -/
theorem readPieces_iff :
    (∃ pieces, readPieces cs = some (pieces, rest) ∧ joinPieces pieces = some text) ↔
      ∃ body, cs = body ++ '"' :: rest ∧ Quoted body text := by
  constructor
  · rintro ⟨pieces, hread, hjoin⟩
    exact exists_quoted cs.length (Nat.le_refl _) hread hjoin
  · rintro ⟨body, rfl, hbody⟩
    exact hbody.exists_readPieces rest

/-! ### Strings that are written

Writing chooses one of several spellings for a character.  Reading is indifferent to the
choice, so one case each is enough.
-/

theorem hexDigit?_digitChar (h : n < 16) : hexDigit? (Nat.digitChar n) = some n := by
  have hall : ∀ m < 16, hexDigit? (Nat.digitChar m) = some m := by decide
  exact hall n h

/-- Four digits are enough for a unit. -/
theorem hexValue?_hexFour (h : n < 0x10000) : hexValue? (hexFour n) = some n := by
  have hdigit : ∀ m, hexDigit? (Nat.digitChar (m % 16)) = some (m % 16) :=
    fun m => hexDigit?_digitChar (Nat.mod_lt m (by decide))
  simp only [hexValue?, hexFour, List.foldlM_cons, List.foldlM_nil, hdigit, Option.map_some,
    Option.bind_eq_bind, Option.bind_some, Option.pure_def, Option.some.injEq]
  omega

/-- A written character stands for itself. -/
theorem Quoted.escaped_append (c : Char) (h : Quoted body text) :
    Quoted (escaped c ++ body) (c :: text) := by
  unfold escaped
  split
  · exact .escape rfl h
  · exact .escape rfl h
  · exact .escape rfl h
  · exact .escape rfl h
  · exact .escape rfl h
  · rename_i hquote hbackslash hfeed hreturn htab
    split
    · rename_i hcontrol
      have hsmall : c.toNat < 0xd800 := by
        have hrange := of_decide_eq_true hcontrol
        omega
      have hunit := Quoted.unit (hexValue?_hexFour (by omega)) (.inl hsmall) h
      rwa [Char.ofNat_toNat] at hunit
    · rename_i hcontrol
      refine .plain hquote hbackslash (Nat.not_lt.mp fun hlt => ?_) h
      exact hcontrol (decide_eq_true (.inl hlt))

/-- **Written characters are read as themselves.** -/
theorem quoted_escaped (cs : List Char) : Quoted (cs.flatMap escaped) cs := by
  induction cs with
  | nil => exact .nil
  | cons c cs ih =>
      rw [List.flatMap_cons]
      exact ih.escaped_append c

end FieldQuery.Json

/-
Phrases of a list of lexemes.

`Phrase.group` is `Phrase.ofLexemes` on lexemes that were cut without error.  Runs of
fields are the only thing that joins lexemes, so grouping distributes over an append
unless a field stands on both sides of the seam; and every lexeme is found again in
exactly one phrase.

Grouping is defined from the right: a field is put in front of the phrase that follows
it, if that is a path.  So what a run of fields becomes is decided at its last field,
where nothing follows that it could join, and an error there is kept with the fields in
front of it.
-/
import FieldQuery.Query.Phrase
import Mathlib.Data.List.Induction

namespace FieldQuery

namespace Phrase

/-- The phrases of lexemes that were cut without error. -/
def group (ls : List Lexeme) : List Phrase := ofLexemes (ls.map .ok)

/-- The lexemes that a phrase is made of. -/
def lexemes : Phrase → List Lexeme
  | .path first more => first :: more
  | .lexeme l => [l]
  | .broken fields _ => fields

/-- Paths are made of fields, and no phrase is cut short by an error. -/
def Sound : Phrase → Prop
  | .path first more => ∀ l ∈ first :: more, l.token = .field
  | .lexeme l => l.token ≠ .field ∧ l.token ≠ .eof
  | .broken _ _ => False

/-! ### Grouping step by step

One equation for each kind of item.  A field looks at the phrase behind it, and it is
the only one that does.
-/

@[simp] theorem group_nil : group [] = [] := rfl

theorem group_field {l : Lexeme} (h : l.token = .field) (rest : List Lexeme) :
    group (l :: rest) = consField l (group rest) := by
  simp [group, ofLexemes, h]

theorem group_other {l : Lexeme} (hfield : l.token ≠ .field) (heof : l.token ≠ .eof)
    (rest : List Lexeme) : group (l :: rest) = .lexeme l :: group rest := by
  simp only [group, List.map_cons, ofLexemes]

theorem group_eof {l : Lexeme} (h : l.token = .eof) (rest : List Lexeme) :
    group (l :: rest) = [] := by
  simp [group, ofLexemes, h]

/-- A field joins the first phrase where there is one, and what follows that phrase stays. -/
theorem consField_append (field : Lexeme) {phrases : List Phrase} (h : phrases ≠ [])
    (more : List Phrase) : consField field (phrases ++ more) = consField field phrases ++ more := by
  obtain ⟨p, rest, rfl⟩ := List.exists_cons_of_ne_nil h
  cases p <;> rfl

theorem group_ne_nil {l : Lexeme} (h : l.token ≠ .eof) (rest : List Lexeme) :
    group (l :: rest) ≠ [] := by
  by_cases hfield : l.token = .field
  · rw [group_field hfield]
    unfold consField
    split <;> simp
  · rw [group_other hfield h]
    simp

/-- A field in front of something that does not begin with a field is a path of its own. -/
theorem consField_group {ls : List Lexeme} (h : ∀ l ∈ ls.head?, l.token ≠ .field)
    (field : Lexeme) : consField field (group ls) = .path field [] :: group ls := by
  cases ls with
  | nil => rfl
  | cons l rest =>
      by_cases heof : l.token = .eof
      · rw [group_eof heof]
        rfl
      · rw [group_other (h l rfl) heof]
        rfl

/-! ### Grouping a list in two parts

A seam is harmless if no field stands in front of it or none behind it.  Reading a
condition uses this at every parenthesis.
-/

/-- Nothing is joined across a seam that has no field on one of its sides. -/
theorem group_append {ls more : List Lexeme} (heof : ∀ l ∈ ls, l.token ≠ .eof)
    (hseam : (∀ l ∈ ls.getLast?, l.token ≠ .field) ∨ ∀ l ∈ more.head?, l.token ≠ .field) :
    group (ls ++ more) = group ls ++ group more := by
  induction ls with
  | nil => rfl
  | cons l rest ih =>
      have heofRest : ∀ l' ∈ rest, l'.token ≠ .eof :=
        fun l' hl' => heof l' (List.mem_cons_of_mem _ hl')
      by_cases hfield : l.token = .field
      · rw [List.cons_append, group_field hfield, group_field hfield]
        cases rest with
        | nil =>
            -- the seam is right behind this field, so the other side has none
            have hmore : ∀ l' ∈ more.head?, l'.token ≠ .field := by
              rcases hseam with hlast | hhead
              · exact absurd hfield (hlast l rfl)
              · exact hhead
            rw [List.nil_append, consField_group hmore]
            rfl
        | cons next rest =>
            have hseam' := hseam
            rw [List.getLast?_cons_cons] at hseam'
            rw [ih heofRest hseam',
              consField_append l (group_ne_nil (heofRest next List.mem_cons_self) rest)]
      · have hl : l.token ≠ .eof := heof l List.mem_cons_self
        have hseam' : (∀ l ∈ rest.getLast?, l.token ≠ .field) ∨
            ∀ l ∈ more.head?, l.token ≠ .field := by
          rcases hseam with hlast | hhead
          · refine .inl fun l' hl' => hlast l' ?_
            cases rest with
            | nil => simp at hl'
            | cons next rest => rwa [List.getLast?_cons_cons]
          · exact .inr hhead
        rw [List.cons_append, group_other hfield hl, group_other hfield hl, ih heofRest hseam']
        rfl

/-- The end adds no phrase. -/
theorem group_append_eof {ls : List Lexeme} {last : Lexeme} (heof : ∀ l ∈ ls, l.token ≠ .eof)
    (hlast : last.token = .eof) : group (ls ++ [last]) = group ls := by
  rw [group_append heof (.inr ?_), group_eof hlast, List.append_nil]
  intro l hl
  obtain rfl := Option.some.inj hl
  simp [hlast]

/-- In front of a lexeme that stands for itself lexemes are grouped apart from what follows, an
error included. -/
theorem ofLexemes_append {ls : List Lexeme} {l : Lexeme} (heof : ∀ l ∈ ls, l.token ≠ .eof)
    (hfield : l.token ≠ .field) (hl : l.token ≠ .eof) (items : List (Except ScanError Lexeme)) :
    ofLexemes (ls.map .ok ++ .ok l :: items) = group ls ++ .lexeme l :: ofLexemes items := by
  induction ls with
  | nil => simp only [List.map_nil, List.nil_append, group_nil, ofLexemes]
  | cons first rest ih =>
      obtain ⟨hfirst, hrest⟩ := List.forall_mem_cons.mp heof
      rw [List.map_cons, List.cons_append]
      by_cases hfirstField : first.token = .field
      · rw [group_field hfirstField]
        simp only [ofLexemes, hfirstField, ih hrest]
        cases rest with
        | nil => rfl
        | cons next rest =>
            exact consField_append first (group_ne_nil (hrest next List.mem_cons_self) rest) _
      · rw [group_other hfirstField hfirst]
        simp only [ofLexemes, ih hrest, List.cons_append]

/-- An error that follows fields cuts their run short. -/
theorem ofLexemes_fields {fields : List Lexeme} (h : ∀ l ∈ fields, l.token = .field)
    (e : ScanError) : ofLexemes (fields.map .ok ++ [.error e]) = [.broken fields e] := by
  induction fields with
  | nil => rfl
  | cons l rest ih =>
      obtain ⟨hl, hrest⟩ := List.forall_mem_cons.mp h
      simp only [List.map_cons, List.cons_append, ofLexemes, hl, ih hrest, consField]

/-- In front of an error lexemes are grouped as ever, up to the run that it cuts short. -/
theorem ofLexemes_error {ls : List Lexeme} (heof : ∀ l ∈ ls, l.token ≠ .eof) (e : ScanError) :
    ∃ front fields, ls = front ++ fields ∧
      ofLexemes (ls.map .ok ++ [.error e]) = group front ++ [.broken fields e] := by
  -- from the back, with the fields that have been passed over
  suffices hall : ∀ fields : List Lexeme, (∀ l ∈ fields, l.token = .field) →
      ∃ front fields', ls ++ fields = front ++ fields' ∧
        ofLexemes ((ls ++ fields).map .ok ++ [.error e]) = group front ++ [.broken fields' e] by
    simpa using hall [] (by simp)
  induction ls using List.reverseRecOn with
  | nil => exact fun fields hfields => ⟨[], fields, rfl, ofLexemes_fields hfields e⟩
  | append_singleton ls l ih =>
      obtain ⟨heofRest, heofLast⟩ := List.forall_mem_append.mp heof
      intro fields hfields
      rw [List.append_assoc, List.singleton_append]
      by_cases hfield : l.token = .field
      · exact ih heofRest (l :: fields) (List.forall_mem_cons.mpr ⟨hfield, hfields⟩)
      · have hl := heofLast l (List.mem_singleton.mpr rfl)
        refine ⟨ls ++ [l], fields, by simp, ?_⟩
        rw [List.map_append, List.map_cons, List.append_assoc, List.cons_append,
          ofLexemes_append heofRest hfield hl, ofLexemes_fields hfields e,
          group_append heofRest (.inr ?_), group_other hfield hl, group_nil, List.append_assoc,
          List.singleton_append]
        intro l' hl'
        obtain rfl := Option.some.inj hl'
        exact hfield

theorem group_fields (first : Lexeme) (more : List Lexeme)
    (h : ∀ l ∈ first :: more, l.token = .field) : group (first :: more) = [.path first more] := by
  induction more generalizing first with
  | nil =>
      rw [group_field (h first List.mem_cons_self)]
      rfl
  | cons next rest ih =>
      rw [group_field (h first List.mem_cons_self),
        ih next fun l hl => h l (List.mem_cons_of_mem _ hl)]
      rfl

/-- Lexemes of which none is a field are phrases by themselves. -/
theorem group_others {ls : List Lexeme} (h : ∀ l ∈ ls, l.token ≠ .field ∧ l.token ≠ .eof) :
    group ls = ls.map .lexeme := by
  induction ls with
  | nil => rfl
  | cons l rest ih =>
      obtain ⟨hfield, heof⟩ := h l List.mem_cons_self
      rw [group_other hfield heof, ih fun l' hl' => h l' (List.mem_cons_of_mem _ hl')]
      rfl

/-! ### The items of the phrases

Phrases keep the items that they are made of, in order, so what is said of an item is
said of where it came from.
-/

/-- The items that a phrase is made of. -/
def items : Phrase → List (Except ScanError Lexeme)
  | .path first more => (first :: more).map .ok
  | .lexeme l => [.ok l]
  | .broken fields e => fields.map .ok ++ [.error e]

theorem items_consField (field : Lexeme) (phrases : List Phrase) :
    (consField field phrases).flatMap items = .ok field :: phrases.flatMap items := by
  unfold consField
  split <;> rfl

/-- Phrases are made of all items up to the end or the error. -/
theorem isPrefix_flatMap_items (all : List (Except ScanError Lexeme)) :
    (ofLexemes all).flatMap items <+: all := by
  fun_induction ofLexemes all with
  | case1 => exact List.prefix_refl _
  | case2 e rest => exact ⟨rest, rfl⟩
  | case3 l rest htoken => exact List.nil_prefix
  | case4 l rest htoken ih =>
      rw [items_consField]
      exact (List.prefix_cons_inj _).mpr ih
  | case5 l rest _ _ ih => exact (List.prefix_cons_inj _).mpr ih

/-- What a phrase is made of is among the items that have been grouped. -/
theorem mem_of_mem_items {all : List (Except ScanError Lexeme)} {p : Phrase}
    {item : Except ScanError Lexeme} (hp : p ∈ ofLexemes all) (hitem : item ∈ p.items) :
    item ∈ all :=
  (isPrefix_flatMap_items all).subset (List.mem_flatMap.mpr ⟨p, hp, hitem⟩)

/-! ### The lexemes of the phrases -/

theorem sound_group {ls : List Lexeme} (heof : ∀ l ∈ ls, l.token ≠ .eof) :
    ∀ p ∈ group ls, Sound p := by
  induction ls with
  | nil => simp
  | cons l rest ih =>
      have ih := ih fun l' hl' => heof l' (List.mem_cons_of_mem _ hl')
      by_cases hfield : l.token = .field
      · rw [group_field hfield]
        unfold consField
        split
        · rename_i first more phrases hgroup
          rw [hgroup] at ih
          intro p hp
          rcases List.mem_cons.mp hp with rfl | hmem
          · intro l' hl'
            rcases List.mem_cons.mp hl' with rfl | hmore
            · exact hfield
            · exact ih (.path first more) List.mem_cons_self l' hmore
          · exact ih p (List.mem_cons_of_mem _ hmem)
        · rename_i fields error phrases hgroup
          rw [hgroup] at ih
          exact absurd (ih _ List.mem_cons_self) id
        · intro p hp
          rcases List.mem_cons.mp hp with rfl | hmem
          · intro l' hl'
            obtain rfl := List.mem_singleton.mp hl'
            exact hfield
          · exact ih p hmem
      · rw [group_other hfield (heof l List.mem_cons_self)]
        intro p hp
        rcases List.mem_cons.mp hp with rfl | hmem
        · exact ⟨hfield, heof l List.mem_cons_self⟩
        · exact ih p hmem

/-- Grouping keeps every lexeme in its place. -/
theorem lexemes_group {ls : List Lexeme} (heof : ∀ l ∈ ls, l.token ≠ .eof) :
    (group ls).flatMap lexemes = ls := by
  induction ls with
  | nil => rfl
  | cons l rest ih =>
      have ih := ih fun l' hl' => heof l' (List.mem_cons_of_mem _ hl')
      by_cases hfield : l.token = .field
      · rw [group_field hfield]
        unfold consField
        split
        · rename_i first more phrases hgroup
          rw [hgroup] at ih
          rw [List.flatMap_cons] at ih ⊢
          show l :: ((first :: more) ++ phrases.flatMap lexemes) = l :: rest
          exact congrArg _ ih
        · rename_i fields error phrases hgroup
          rw [hgroup] at ih
          rw [List.flatMap_cons] at ih ⊢
          show l :: (fields ++ phrases.flatMap lexemes) = l :: rest
          exact congrArg _ ih
        · rw [List.flatMap_cons, ih]
          rfl
      · rw [group_other hfield (heof l List.mem_cons_self), List.flatMap_cons, ih]
        rfl

end Phrase

end FieldQuery

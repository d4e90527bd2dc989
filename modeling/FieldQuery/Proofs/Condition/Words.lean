/-
Positions do not matter.

What lexemes are read as depends on their tokens and texts alone: lexemes with the same
words derive the same trees, count the same and have the same paths, wherever they
stand.

Each of these is an induction over a derivation whose lexemes are cut in the same places
as the other list.  The words of a list decide where it can be cut, so a derivation of
the one is a derivation of the other.
-/
import FieldQuery.Proofs.Condition.Filter

namespace FieldQuery

namespace Lexeme

/-- The lexeme at the front of a text that is read into this word. -/
def ofWord (w : Token × String) : Lexeme := ⟨w.1, 0, w.2⟩

/-- The lexeme as if it stood at the front of a text. -/
def bare (l : Lexeme) : Lexeme := ofWord l.word

theorem literal?_congr {l l' : Lexeme} (h : l.word = l'.word) : l.literal? = l'.literal? := by
  obtain ⟨token, pos, text⟩ := l
  obtain ⟨token', pos', text'⟩ := l'
  obtain ⟨rfl, rfl⟩ := Prod.mk.inj h
  rfl

end Lexeme

namespace Phrase

/-- The phrase with its lexemes changed. -/
def map (f : Lexeme → Lexeme) : Phrase → Phrase
  | .path first more => .path (f first) (more.map f)
  | .lexeme l => .lexeme (f l)
  | .broken fields error => .broken (fields.map f) error

theorem consField_map (f : Lexeme → Lexeme) (field : Lexeme) (phrases : List Phrase) :
    consField (f field) (phrases.map (map f)) = (consField field phrases).map (map f) := by
  cases phrases with
  | nil => rfl
  | cons p rest => cases p <;> rfl

/-- Changes that leave the tokens alone leave the grouping alone. -/
theorem group_map {f : Lexeme → Lexeme} (hf : ∀ l, (f l).token = l.token) (ls : List Lexeme) :
    group (ls.map f) = (group ls).map (map f) := by
  induction ls with
  | nil => rfl
  | cons l rest ih =>
      rw [List.map_cons]
      by_cases hfield : l.token = .field
      · rw [group_field hfield, group_field ((hf l).trans hfield), ih, consField_map]
      · have hfield' : (f l).token ≠ .field := (hf l).symm ▸ hfield
        by_cases heof : l.token = .eof
        · rw [group_eof heof, group_eof ((hf l).trans heof)]
          rfl
        · have heof' : (f l).token ≠ .eof := (hf l).symm ▸ heof
          rw [group_other hfield heof, group_other hfield' heof', ih]
          rfl

theorem pathText_map {f : Lexeme → Lexeme} (hf : ∀ l, (f l).text = l.text) (first : Lexeme)
    (more : List Lexeme) : pathText (f first) (more.map f) = pathText first more := by
  rw [pathText, pathText, ← List.map_cons, List.foldr_map]
  simp only [hf]

end Phrase

namespace Reading

/-- The paths among the phrases are the same for lexemes with the same words. -/
theorem paths_congr {ls ls' : List Lexeme} (h : ls'.map Lexeme.word = ls.map Lexeme.word) :
    (Phrase.group ls').filterMap path? = (Phrase.group ls).filterMap path? := by
  have hbare : ∀ ls : List Lexeme, (Phrase.group ls).filterMap path? =
      (Phrase.group ((ls.map Lexeme.word).map Lexeme.ofWord)).filterMap path? := by
    intro ls
    have hmap : (ls.map Lexeme.word).map Lexeme.ofWord = ls.map Lexeme.bare := List.map_map
    rw [hmap, @Phrase.group_map Lexeme.bare fun _ => rfl, List.filterMap_map]
    refine List.filterMap_congr fun p _ => ?_
    cases p with
    | path first more =>
        have htext := @Phrase.pathText_map Lexeme.bare (fun _ => rfl) first more
        exact congrArg some htext.symm
    | lexeme l => rfl
    | broken fields error => rfl
  rw [hbare ls', hbare ls, h]

end Reading

namespace Condition

open Lexeme

variable {ls ls' : List Lexeme}

/-! ### Counting

A count looks at tokens only.
-/

/-- What is seen in the words is counted alike. -/
theorem countP_congr {p : Lexeme → Bool} (hp : ∀ l, p l = p (ofWord l.word))
    (h : ls'.map word = ls.map word) : ls'.countP p = ls.countP p := by
  have hwords : ∀ ls : List Lexeme, ls.countP p = (ls.map word).countP (p ∘ ofWord) := by
    intro ls
    rw [List.countP_map]
    exact List.countP_congr fun l _ => by rw [hp l]; rfl
  rw [hwords ls', hwords ls, h]

theorem operatorCount_congr (h : ls'.map word = ls.map word) :
    operatorCount ls' = operatorCount ls :=
  countP_congr (fun _ => rfl) h

theorem opens_congr (h : ls'.map word = ls.map word) : opens ls' = opens ls :=
  countP_congr (fun _ => rfl) h

theorem closes_congr (h : ls'.map word = ls.map word) : closes ls' = closes ls :=
  countP_congr (fun _ => rfl) h

theorem Within.congr {depth : Nat} (hls : Within depth ls) (h : ls'.map word = ls.map word) :
    Within depth ls' := by
  rintro front' ⟨back', rfl⟩
  rw [List.map_append] at h
  obtain ⟨front, back, rfl, hfront, -⟩ := List.map_eq_append_iff.mp h.symm
  rw [opens_congr hfront.symm, closes_congr hfront.symm]
  exact hls front (List.prefix_append _ _)

/-! ### Deriving

The other list is taken apart as the derivation asks for, an append into an append and a
lexeme into a lexeme with its word.
-/

theorem Empties.congr (hls : Empties ls) : ∀ {ls' : List Lexeme},
    ls'.map word = ls.map word → Empties ls' := by
  induction hls with
  | nil =>
      intro ls' h
      obtain rfl := List.map_eq_nil_iff.mp h
      exact .nil
  | pair hopening _ hclosing _ ihInner ihRest =>
      intro ls' h
      rw [List.map_cons, List.map_append, List.map_cons] at h
      obtain ⟨opening', inner', closing', rest', rfl, hopening', hinner', hclosing', hrest'⟩ :=
        exists_enclosed h
      exact .pair ((token_of_word hopening').trans hopening) (ihInner hinner')
        ((token_of_word hclosing').trans hclosing) (ihRest hrest')

theorem Listed.congr {ts : List Tree} (hls : Listed ls ts) : ∀ {ls' : List Lexeme},
    ls'.map word = ls.map word → Listed ls' ts := by
  induction hls with
  | nil =>
      intro ls' h
      obtain rfl := List.map_eq_nil_iff.mp h
      exact .nil
  | comma htoken _ ih =>
      intro ls' h
      obtain ⟨l', rest', rfl, hl', hrest'⟩ := List.map_eq_cons_iff.mp h
      exact .comma ((token_of_word hl').trans htoken) (ih hrest')
  | literal htoken ht _ ih =>
      intro ls' h
      obtain ⟨l', rest', rfl, hl', hrest'⟩ := List.map_eq_cons_iff.mp h
      refine .literal ?_ ((literal?_congr hl').trans ht) (ih hrest')
      rw [token_of_word hl']
      exact htoken

/-- Lexemes with the same words derive the same trees. -/
theorem Derives.congr {part : Part} {t : Tree} (hls : Derives part ls t) :
    ∀ {ls' : List Lexeme}, ls'.map word = ls.map word → Derives part ls' t := by
  induction hls with
  | @path first more hfields =>
      intro ls' h
      have hnames : ls'.map word =
          ((first :: more).map Lexeme.text).map (Prod.mk Token.field) := by
        rw [h, List.map_map]
        refine List.map_congr_left fun l hl => ?_
        rw [word, hfields l hl]
        rfl
      have hpath := derives_fields (by simp) hnames
      rwa [List.foldr_map] at hpath
  | literal htoken ht =>
      intro ls' h
      obtain ⟨l', rest', rfl, hl', hrest'⟩ := List.map_eq_cons_iff.mp h
      obtain rfl := List.map_eq_nil_iff.mp hrest'
      refine .literal ?_ ((literal?_congr hl').trans ht)
      rw [token_of_word hl']
      exact htoken
  | group hopening _ hclosing ih =>
      intro ls' h
      rw [List.map_cons, List.map_append, List.map_singleton] at h
      obtain ⟨opening', inner', closing', rest', rfl, hopening', hinner', hclosing', hrest'⟩ :=
        exists_enclosed h
      obtain rfl := List.map_eq_nil_iff.mp hrest'
      exact .group ((token_of_word hopening').trans hopening) (ih hinner')
        ((token_of_word hclosing').trans hclosing)
  | ofOperand _ ih =>
      intro ls' h
      exact .ofOperand (ih h)
  | list hopening hinner hclosing =>
      intro ls' h
      rw [List.map_cons, List.map_append, List.map_singleton] at h
      obtain ⟨opening', inner', closing', rest', rfl, hopening', hinner', hclosing', hrest'⟩ :=
        exists_enclosed h
      obtain rfl := List.map_eq_nil_iff.mp hrest'
      exact .list ((token_of_word hopening').trans hopening) (hinner.congr hinner')
        ((token_of_word hclosing').trans hclosing)
  | first hbefore _ hafter ih =>
      intro ls' h
      rw [List.map_append, List.map_append] at h
      obtain ⟨before', behind, rfl, hbefore', hbehind⟩ := List.map_eq_append_iff.mp h
      obtain ⟨operand', after', rfl, hoperand', hafter'⟩ := List.map_eq_append_iff.mp hbehind
      exact .first (hbefore.congr hbefore') (ih hoperand') (hafter.congr hafter')
  | binary _ htoken hgap _ hafter ihLeft ihRight =>
      intro ls' h
      rw [List.map_append, List.map_cons, List.map_append, List.map_append] at h
      obtain ⟨front', behind, rfl, hfront', hbehind⟩ := List.map_eq_append_iff.mp h
      obtain ⟨l', right', rfl, hl', hright'⟩ := List.map_eq_cons_iff.mp hbehind
      obtain ⟨gap', sides, rfl, hgap', hsides⟩ := List.map_eq_append_iff.mp hright'
      obtain ⟨side', after', rfl, hside', hafter'⟩ := List.map_eq_append_iff.mp hsides
      exact .binary (ihLeft hfront') ((token_of_word hl').trans htoken) (hgap.congr hgap')
        (ihRight hside') (hafter.congr hafter')

end Condition

end FieldQuery

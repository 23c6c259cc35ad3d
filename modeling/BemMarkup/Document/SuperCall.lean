import BemMarkup.Document.Cursor
import BemMarkup.Document.Name

/-!
# Super calls

A super call is written `super!`, or `super.name!` to name the element that it refers to.
Nothing may stand between its parts, and a text that only starts like one is none.

## Main statements

* `SuperToken.lexeme_prefix`: a super call that is read stands at the start of the text.
* `readSuperCall?_consumes`: a super call is read by going over its text.
-/

namespace BemMarkup.Document

/-! ## Tokens -/

/-- A super call as it is written: `super!` or `super.name!`. -/
structure SuperToken where
  /-- The element that is named, if one is. -/
  target : Option (List Char)
deriving DecidableEq, Repr

/-- The text of a super call. -/
def SuperToken.lexeme (token : SuperToken) : List Char :=
  match token.target with
  | none => ['s', 'u', 'p', 'e', 'r', '!']
  | some name => 's' :: 'u' :: 'p' :: 'e' :: 'r' :: '.' :: (name ++ ['!'])

/-- The super call at the start of a text. -/
def SuperToken.read? : List Char → Option SuperToken
  | 's' :: 'u' :: 'p' :: 'e' :: 'r' :: '!' :: _ => some ⟨none⟩
  | 's' :: 'u' :: 'p' :: 'e' :: 'r' :: '.' :: cs =>
    let name := NameClass.element.lexeme cs
    if !name.isEmpty && (cs.drop name.length).head? == some '!' then some ⟨some name⟩ else none
  | _ => none

/-- A super call that is read stands at the start of the text. -/
theorem SuperToken.lexeme_prefix {cs : List Char} {token : SuperToken}
    (h : SuperToken.read? cs = some token) : token.lexeme <+: cs := by
  unfold SuperToken.read? at h
  split at h
  · cases h
    simp [SuperToken.lexeme]
  · rename_i cs
    obtain ⟨rest, hrest⟩ := NameClass.element.lexeme_prefix cs
    dsimp only at h
    split at h
    · rename_i hcond
      cases h
      rw [drop_length_of_append_eq hrest] at hcond
      simp only [Bool.and_eq_true, beq_iff_eq] at hcond
      obtain ⟨tail, rfl⟩ : ∃ tail, rest = '!' :: tail := by
        cases rest with
        | nil => simp at hcond
        | cons c tail => exact ⟨tail, by simpa using hcond.2⟩
      refine ⟨tail, ?_⟩
      simpa [SuperToken.lexeme] using hrest
    · cases h
  · cases h

/-- A super call is written with at least one character. -/
theorem SuperToken.lexeme_ne_nil (token : SuperToken) : token.lexeme ≠ [] := by
  rcases token with ⟨_ | name⟩ <;> simp [SuperToken.lexeme]

/-! ## Reading -/

/-- Reads the super call at the cursor, if there is one. -/
def readSuperCall? (c : Cursor) : Option (SuperCall × Cursor) :=
  (SuperToken.read? c.rest).map fun token =>
    let next := c.past token.lexeme
    (⟨token.target.map String.ofList, c.spanTo next⟩, next)

/-- A super call is read by going over its text. -/
theorem readSuperCall?_consumes {c d : Cursor} {call : SuperCall}
    (h : readSuperCall? c = some (call, d)) : ∃ text, c.Consumes text d ∧ text ≠ [] := by
  obtain ⟨token, htoken, h⟩ := Option.map_eq_some_iff.1 h
  cases h
  exact ⟨_, Cursor.past_consumes (SuperToken.lexeme_prefix htoken), token.lexeme_ne_nil⟩

end BemMarkup.Document

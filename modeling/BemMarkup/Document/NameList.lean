import BemMarkup.Document.Name
import BemMarkup.Document.Token

/-!
# Name lists

The names of an element are written behind a slash that starts no comment. They are
separated by commas, and the place between two commas may stay empty, so a list is a
sequence of *slots*. It always has at least one. Gaps may stand between the parts of a
list; comments may not, because a slash would start another list.

## Main statements

* `readNames_consumes`: a name list is read by going over a text that starts with a slash.
-/

namespace BemMarkup.Document

/-! ## Slots -/

/-- A name as a tree stores it: nothing if it is empty. -/
def nameSlot (cs : List Char) : Option String :=
  if cs.isEmpty then none else some (String.ofList cs)

/-! ## Reading -/

/-- Reads the slots of a name list, and the gap behind them. -/
def readSlots (c : Cursor) : List (Option String) × Cursor :=
  let name := NameClass.element.lexeme c.rest
  let next := (c.past name).skipGaps
  if next.current? = some ',' then
    let later := readSlots (next.past [',']).skipGaps
    (nameSlot name :: later.1, later.2)
  else ([nameSlot name], next)
termination_by c.rest.length
decreasing_by
  rename_i h
  exact Nat.lt_of_le_of_lt (Cursor.skipGaps_length_le _) (Nat.lt_of_lt_of_le
    (Cursor.past_current_length_lt h) (Nat.le_trans (Cursor.skipGaps_length_le _)
      (Cursor.past_length_le _ _)))

/-- The slots of a name list are read by going over their text. -/
theorem readSlots_consumes (c : Cursor) : ∃ text, c.Consumes text (readSlots c).2 := by
  induction c using readSlots.induct with
  | case1 c name next hcomma ih =>
    obtain ⟨text, htext⟩ := ih
    rw [readSlots, if_pos hcomma]
    exact ⟨_, (Cursor.past_consumes (NameClass.element.lexeme_prefix c.rest)).trans
      ((Cursor.skipGaps_consumes _).trans ((Cursor.past_current_consumes hcomma).trans
        ((Cursor.skipGaps_consumes _).trans htext)))⟩
  | case2 c name next hcomma =>
    rw [readSlots, if_neg hcomma]
    exact ⟨_, (Cursor.past_consumes (NameClass.element.lexeme_prefix c.rest)).trans
      (Cursor.skipGaps_consumes _)⟩

/-- Reads the name list at the cursor, if there is one. -/
def readNames (c : Cursor) : Option (List (Option String)) × Cursor :=
  if c.current? = some '/' && !startsComment c.rest then
    let slots := readSlots (c.past ['/']).skipGaps
    (some slots.1, slots.2)
  else (none, c)

/-- A name list is read by going over its text, which starts with a slash. -/
theorem readNames_consumes {c d : Cursor} {names : Option (List (Option String))}
    (h : readNames c = (names, d)) :
    ∃ text, c.Consumes text d ∧ (names.isSome → text ≠ []) := by
  unfold readNames at h
  split at h
  · rename_i hslash
    simp only [Bool.and_eq_true, decide_eq_true_eq] at hslash
    obtain ⟨text, htext⟩ := readSlots_consumes (c.past ['/']).skipGaps
    cases h
    exact ⟨_, (Cursor.past_current_consumes hslash.1).trans
      ((Cursor.skipGaps_consumes _).trans htext), by simp⟩
  · cases h
    exact ⟨_, .refl c, by simp⟩

end BemMarkup.Document

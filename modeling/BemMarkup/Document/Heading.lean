import BemMarkup.Document.AttributeGroup
import BemMarkup.Document.NameList

/-!
# Headings of elements

A heading is all of an element that stands before its braces: the mark of a helper, the
tag, the name list and the attribute list, in this order and each of them optional. A tag
or a name list has to be there. A heading never nests, so it is complete as soon as its
last part has been read.

## Main statements

* `readHeading_consumes`: a heading is read by going over a text that is not empty.
-/

namespace BemMarkup.Document

/-! ## Headings -/

/-- Reads the mark of a helper element, if it is at the cursor. -/
def readMark (c : Cursor) : Bool × Cursor :=
  if c.current? = some '@' then (true, c.past ['@']) else (false, c)

/-- Reads the tag at the cursor and the gap behind it, if there is a tag. -/
def readTag (c : Cursor) : Option String × Cursor :=
  let tag := NameClass.tag.lexeme c.rest
  if tag.isEmpty then (none, c) else (some (String.ofList tag), (c.past tag).skipGaps)

/-- Reads the heading of an element, with the gap behind each of its parts but a mark.
A heading has a tag or a name list. -/
def readHeading (c : Cursor) : Except Fault (Heading × Cursor) :=
  let mark := readMark c
  let tag := readTag mark.2
  let names := readNames tag.2
  if tag.1.isNone && names.1.isNone then .error ⟨c.offset, .expectedTagName⟩
  else (readAttributes names.2).map fun (attributes, last) =>
    (⟨mark.1, tag.1, names.1, attributes⟩, last)

theorem readMark_consumes (c : Cursor) : ∃ text, c.Consumes text (readMark c).2 := by
  unfold readMark
  split
  · rename_i h
    exact ⟨_, Cursor.past_current_consumes h⟩
  · exact ⟨_, .refl c⟩

theorem readTag_consumes (c : Cursor) :
    ∃ text, c.Consumes text (readTag c).2 ∧ ((readTag c).1.isSome → text ≠ []) := by
  unfold readTag
  dsimp only
  split
  · exact ⟨_, .refl c, by simp⟩
  · rename_i h
    exact ⟨_, (Cursor.past_consumes (NameClass.lexeme_prefix _ _)).trans
      (Cursor.skipGaps_consumes _), fun _ => by simp_all⟩

/-- A heading is read by going over a text that is not empty. -/
theorem readHeading_consumes {c d : Cursor} {heading : Heading}
    (h : readHeading c = .ok (heading, d)) : ∃ text, c.Consumes text d ∧ text ≠ [] := by
  unfold readHeading at h
  dsimp only at h
  obtain ⟨t1, h1⟩ := readMark_consumes c
  obtain ⟨t2, h2, ne2⟩ := readTag_consumes (readMark c).2
  obtain ⟨t3, h3, ne3⟩ := readNames_consumes (c := (readTag (readMark c).2).2) rfl
  split at h
  · cases h
  · rename_i hsome
    obtain ⟨⟨group, last⟩, hgroup, h⟩ := map_eq_ok_iff.1 h
    cases h
    obtain ⟨t4, h4⟩ := readAttributes_consumes hgroup
    refine ⟨_, h1.trans (h2.trans (h3.trans h4)), fun hnil => ?_⟩
    simp only [List.append_eq_nil_iff] at hnil
    rw [Bool.and_eq_true, Option.isNone_iff_eq_none, Option.isNone_iff_eq_none] at hsome
    refine hsome ⟨?_, ?_⟩
    · exact Option.not_isSome_iff_eq_none.1 fun hs => ne2 hs hnil.2.1
    · exact Option.not_isSome_iff_eq_none.1 fun hs => ne3 hs hnil.2.2.1

end BemMarkup.Document

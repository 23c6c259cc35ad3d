import BemMarkup.Text.Blank
import BemMarkup.Text.Bytes
import BemMarkup.Document.Tree

/-!
# Cursors

A `Cursor` is a place in a source together with the text from there on. Readers never
count: they name the text that they take, its *lexeme*, and `Cursor.past` moves over it.
So all arithmetic with offsets is in this module, and what a reader has to show is only
that its lexeme stands at the cursor.

`Cursor.Consumes` states that one cursor is reached from another by going over a given
text. Every reader satisfies it, which makes spans exact and lets loops end.

## Main statements

* `Cursor.Consumes.trans`: the texts of consecutive moves are joined.
* `Cursor.past_consumes`: moving past a lexeme that stands at the cursor consumes it.
* `Cursor.Consumes.upTo_eq`: the text between two cursors is the text consumed.
-/

namespace BemMarkup.Document

open Text

/-- A place in a source. -/
structure Cursor where
  /-- The number of bytes before the place. -/
  offset : Nat
  /-- The text from the place on. -/
  rest : List Char
deriving DecidableEq, Repr

namespace Cursor

/-! ## Moving -/

/-- The first place of a source. -/
def start (source : List Char) : Cursor := ⟨0, source⟩

/-- The character at the cursor, unless it is at the end. -/
def current? (c : Cursor) : Option Char := c.rest.head?

/-- The place behind a lexeme that stands at the cursor. -/
def past (c : Cursor) (lexeme : List Char) : Cursor :=
  ⟨c.offset + byteLength lexeme, c.rest.drop lexeme.length⟩

/-- The first place from the cursor on that is no gap. -/
def skipGaps (c : Cursor) : Cursor := c.past (c.rest.takeWhile isGap)

/-- The end of the source. -/
def finish (c : Cursor) : Cursor := c.past c.rest

/-- The text between the cursor and a later one. -/
def upTo (c later : Cursor) : List Char := takeBytes (later.offset - c.offset) c.rest

/-- The span between the cursor and a later one. -/
def spanTo (c later : Cursor) : Span := ⟨c.offset, String.ofList (c.upTo later)⟩

@[simp] theorem past_offset (c : Cursor) (lexeme : List Char) :
    (c.past lexeme).offset = c.offset + byteLength lexeme := rfl

@[simp] theorem past_rest (c : Cursor) (lexeme : List Char) :
    (c.past lexeme).rest = c.rest.drop lexeme.length := rfl

@[simp] theorem past_nil (c : Cursor) : c.past [] = c := by
  simp [past]

/-! ## What lies between two cursors -/

/-- The cursor `d` is reached from `c` by going over `text`. -/
structure Consumes (c : Cursor) (text : List Char) (d : Cursor) : Prop where
  /-- The text stands at the first cursor, and the second is at what follows it. -/
  rest_eq : c.rest = text ++ d.rest
  /-- The second cursor is as many bytes further on as the text is long. -/
  offset_eq : d.offset = c.offset + byteLength text

theorem Consumes.refl (c : Cursor) : c.Consumes [] c := ⟨rfl, rfl⟩

/-- The texts of consecutive moves are joined. -/
theorem Consumes.trans {c d e : Cursor} {s t : List Char} (h : c.Consumes s d)
    (h' : d.Consumes t e) : c.Consumes (s ++ t) e :=
  ⟨by rw [h.rest_eq, h'.rest_eq, List.append_assoc],
    by rw [h'.offset_eq, h.offset_eq, byteLength_append]; omega⟩

/-- Moving past a lexeme that stands at the cursor consumes it. -/
theorem past_consumes {c : Cursor} {lexeme : List Char} (h : lexeme <+: c.rest) :
    c.Consumes lexeme (c.past lexeme) := by
  obtain ⟨rest, hrest⟩ := h
  refine ⟨?_, rfl⟩
  simp [← hrest]

theorem past_consumes_of_rest {c : Cursor} {lexeme : List Char} (rest : List Char)
    (h : c.rest = lexeme ++ rest) : c.Consumes lexeme (c.past lexeme) :=
  past_consumes ⟨rest, h.symm⟩

theorem skipGaps_consumes (c : Cursor) : c.Consumes (c.rest.takeWhile isGap) c.skipGaps :=
  past_consumes (List.takeWhile_prefix isGap)

theorem finish_consumes (c : Cursor) : c.Consumes c.rest c.finish :=
  past_consumes (List.prefix_refl _)

/-- The text between two cursors is the text consumed. -/
theorem Consumes.upTo_eq {c d : Cursor} {text : List Char} (h : c.Consumes text d) :
    c.upTo d = text := by
  rw [upTo, h.rest_eq, h.offset_eq, Nat.add_sub_cancel_left, takeBytes_append]

theorem Consumes.length_eq {c d : Cursor} {text : List Char} (h : c.Consumes text d) :
    c.rest.length = text.length + d.rest.length := by
  rw [h.rest_eq, List.length_append]

/-- A move never makes the remaining text longer. -/
theorem Consumes.length_le {c d : Cursor} {text : List Char} (h : c.Consumes text d) :
    d.rest.length ≤ c.rest.length := by
  rw [h.length_eq]
  omega

/-- A move over a text that is not empty makes the remaining text shorter. -/
theorem Consumes.length_lt {c d : Cursor} {text : List Char} (h : c.Consumes text d)
    (ne : text ≠ []) : d.rest.length < c.rest.length := by
  have := List.length_pos_iff.2 ne
  rw [h.length_eq]
  omega

/-! ## Progress -/

theorem rest_eq_of_current? {c : Cursor} {d : Char} (h : c.current? = some d) :
    ∃ rest, c.rest = d :: rest := List.head?_eq_some_iff.1 h

theorem current?_of_rest_eq {c : Cursor} {d : Char} {rest : List Char} (h : c.rest = d :: rest) :
    c.current? = some d := by
  rw [current?, h, List.head?_cons]

/-- The character at the cursor can be moved over. -/
theorem past_current_consumes {c : Cursor} {d : Char} (h : c.current? = some d) :
    c.Consumes [d] (c.past [d]) := by
  obtain ⟨rest, hrest⟩ := rest_eq_of_current? h
  exact past_consumes_of_rest rest hrest

theorem past_length_le (c : Cursor) (lexeme : List Char) :
    (c.past lexeme).rest.length ≤ c.rest.length := by
  simp

theorem skipGaps_length_le (c : Cursor) : c.skipGaps.rest.length ≤ c.rest.length :=
  c.skipGaps_consumes.length_le

theorem past_current_length_lt {c : Cursor} {d : Char} (h : c.current? = some d) :
    (c.past [d]).rest.length < c.rest.length :=
  (past_current_consumes h).length_lt (by simp)

/-! ## Gaps -/

/-- What remains behind a gap is what is left when its characters are dropped. -/
@[simp] theorem skipGaps_rest (c : Cursor) : c.skipGaps.rest = c.rest.dropWhile isGap := by
  have h := (skipGaps_consumes c).rest_eq
  have h' := (List.takeWhile_append_dropWhile (p := isGap) (l := c.rest))
  exact (List.append_cancel_left (h'.trans h)).symm

/-- Behind a gap stands no gap. -/
theorem skipGaps_skipGaps (c : Cursor) : c.skipGaps.skipGaps = c.skipGaps := by
  have h : c.skipGaps.rest.takeWhile isGap = [] := by
    rw [skipGaps_rest]
    cases h : c.rest.dropWhile isGap with
    | nil => rfl
    | cons d rest =>
      have := List.head_dropWhile_not (p := isGap) (by simp [h] : c.rest.dropWhile isGap ≠ [])
      simp_all
  rw [skipGaps.eq_def c.skipGaps, h, past_nil]

end Cursor

end BemMarkup.Document

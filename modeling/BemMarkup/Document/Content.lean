import BemMarkup.Document.Heading

/-!
# Content

Content is a sequence of items, and an item never nests: the item that an element starts
with ends at its opening brace. Nesting is kept in a stack of `OpenElement`s instead, so
reading content is a single loop over items that pushes at an opening brace and pops at a
closing one. However deep a document nests, the loop has one case for each of the two.

## Main statements

* `readItem_consumes`: every item takes at least one character, so the loop ends.
* `readContent_of_step`, `readContent_of_complete`, `readContent_of_fault`: the loop in
  terms of its turns.
-/

namespace BemMarkup.Document

open Text

/-! ## Items -/

/-- A step of content. -/
inductive Item where
  /-- A node that is complete. -/
  | leaf (node : Node)
  /-- An element up to its opening brace. -/
  | opening (heading : Heading)

/-- The node of a comment between two cursors. -/
def CommentToken.node (token : CommentToken) (c d : Cursor) : Node :=
  .comment ⟨String.ofList token.body, token.isMultiline, c.spanTo d⟩

/-- The node of a quoted text between two cursors. -/
def QuotedToken.node (token : QuotedToken) (c d : Cursor) : Node :=
  .literal ⟨token.value, token.isMultiline, c.spanTo d⟩

/-- The node of an element between two cursors. The gap behind the last part of an element
without braces does not belong to it. -/
def Heading.node (heading : Heading) (content : Option (List Node)) (c d : Cursor) : Node :=
  .element ⟨heading, content, c.offset, String.ofList (trim (c.upTo d))⟩

/-- Reads an element without braces, or an element up to its opening brace. -/
def readElement (c : Cursor) : Except Fault (Item × Cursor) :=
  (readHeading c).map fun (heading, next) =>
    if next.current? = some '\x7b' then (.opening heading, next.past ['\x7b'])
    else (.leaf (heading.node none c next), next)

/-- Reads the item at the cursor, which is at no gap. Super calls are read as such only
inside braces. -/
def readItem (inBraces : Bool) (c : Cursor) : Except Fault (Item × Cursor) :=
  match c.rest with
  | [] => readElement c
  | first :: _ =>
    if isQuote first then
      (readQuoted first c).map fun (token, next) => (.leaf (token.node c next), next)
    else if startsComment c.rest then
      (readComment c).map fun (token, next) => (.leaf (token.node c next), next)
    else
      match if inBraces then readSuperCall? c else none with
      | some (call, next) => .ok (.leaf (.superCall call), next)
      | none => readElement c

theorem readElement_consumes {c d : Cursor} {item : Item} (h : readElement c = .ok (item, d)) :
    ∃ text, c.Consumes text d ∧ text ≠ [] := by
  obtain ⟨⟨heading, next⟩, hheading, h⟩ := map_eq_ok_iff.1 h
  obtain ⟨_, h1, ne⟩ := readHeading_consumes hheading
  dsimp only at h
  split at h
  · rename_i hbrace
    cases h
    exact ⟨_, h1.trans (Cursor.past_current_consumes hbrace), by simp⟩
  · cases h
    exact ⟨_, h1, ne⟩

/-- Every item takes at least one character. -/
theorem readItem_consumes {c d : Cursor} {inBraces : Bool} {item : Item}
    (h : readItem inBraces c = .ok (item, d)) : ∃ text, c.Consumes text d ∧ text ≠ [] := by
  unfold readItem at h
  split at h
  · exact readElement_consumes h
  · rename_i first rest hrest
    split at h
    · obtain ⟨⟨token, next⟩, htoken, h⟩ := map_eq_ok_iff.1 h
      cases h
      exact ⟨_, readQuoted_consumes hrest htoken, token.lexeme_ne_nil⟩
    · split at h
      · obtain ⟨⟨token, next⟩, htoken, h⟩ := map_eq_ok_iff.1 h
        cases h
        exact ⟨_, readComment_consumes htoken, token.lexeme_ne_nil⟩
      · split at h
        · rename_i call next hcall
          cases h
          split at hcall
          · exact readSuperCall?_consumes hcall
          · cases hcall
        · exact readElement_consumes h

/-! ## Content -/

/-- An element whose opening brace has been read and whose closing brace has not. -/
structure OpenElement where
  /-- Where the element starts. -/
  start : Cursor
  /-- Its heading. -/
  heading : Heading
  /-- The nodes that stand before it in the same content, the last one first. -/
  before : List Node

/-- The element with its content, once its closing brace has been read. -/
def OpenElement.close (element : OpenElement) (content : List Node) (last : Cursor) : Node :=
  element.heading.node (some content) element.start last

/-- How far the content of a document has been read. -/
structure Progress where
  /-- The elements around the cursor, the innermost one first. -/
  outer : List OpenElement
  /-- The nodes read in the innermost content, the last one first. -/
  done : List Node
  /-- Where to read on. -/
  cursor : Cursor

/-- Before anything has been read. -/
def Progress.start (c : Cursor) : Progress := ⟨[], [], c⟩

/-- Whether the cursor is between the braces of an element. -/
def Progress.inBraces (p : Progress) : Bool := !p.outer.isEmpty

/-- Takes in an item that starts at one cursor and ends at another. -/
def Progress.push (p : Progress) (c : Cursor) : Item × Cursor → Progress
  | (.leaf node, next) => ⟨p.outer, node :: p.done, next⟩
  | (.opening heading, next) => ⟨⟨c, heading, p.done⟩ :: p.outer, [], next⟩

/-- Reads on by one item or one closing brace; nothing if the content is complete. -/
def Progress.step (p : Progress) : Except Fault (Option Progress) :=
  let here := p.cursor.skipGaps
  match p.outer, here.current? with
  | [], none => .ok none
  | _ :: _, none => .error ⟨here.offset, .unterminatedContent⟩
  | element :: outer, some '\x7d' =>
    let last := here.past ['\x7d']
    .ok (some ⟨outer, element.close p.done.reverse last :: element.before, last⟩)
  | _, some _ => (readItem p.inBraces here).map fun item => some (p.push here item)

@[simp] theorem Progress.push_cursor (p : Progress) (c : Cursor) (item : Item × Cursor) :
    (p.push c item).cursor = item.2 := by
  rcases item with ⟨_ | _, next⟩ <;> rfl

/-- Every turn goes over a text that is not empty. -/
theorem Progress.step_consumes {p q : Progress} (h : p.step = .ok (some q)) :
    ∃ text, p.cursor.Consumes text q.cursor ∧ text ≠ [] := by
  unfold Progress.step at h
  dsimp only at h
  split at h
  · cases h
  · cases h
  · rename_i hbrace
    cases h
    exact ⟨_, p.cursor.skipGaps_consumes.trans (Cursor.past_current_consumes hbrace), by simp⟩
  · obtain ⟨item, hitem, h⟩ := map_eq_ok_iff.1 h
    cases h
    obtain ⟨_, h1, ne⟩ := readItem_consumes hitem
    exact ⟨_, by simpa using p.cursor.skipGaps_consumes.trans h1, by simp [ne]⟩

/-- Reads the rest of a document's content, up to the end of the source. -/
def readContent (p : Progress) : Except Fault (List Node) :=
  match _h : p.step with
  | .error fault => .error fault
  | .ok none => .ok p.done.reverse
  | .ok (some q) => readContent q
termination_by p.cursor.rest.length
decreasing_by
  obtain ⟨_, h, ne⟩ := Progress.step_consumes _h
  exact h.length_lt ne

/-- Reading takes one turn and goes on from there. -/
theorem readContent_of_step {p q : Progress} (h : p.step = .ok (some q)) :
    readContent p = readContent q := by
  rw [readContent]
  split <;> simp_all

/-- Reading ends when no turn is left. -/
theorem readContent_of_complete {p : Progress} (h : p.step = .ok none) :
    readContent p = .ok p.done.reverse := by
  rw [readContent]
  split <;> simp_all

/-- Reading fails with the first turn that does. -/
theorem readContent_of_fault {p : Progress} {fault : Fault} (h : p.step = .error fault) :
    readContent p = .error fault := by
  rw [readContent]
  split <;> simp_all

end BemMarkup.Document

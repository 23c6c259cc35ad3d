import BemMarkup.Document.Content

/-!
# Whole documents

A document is a declaration of its block's name, which may be missing, and content.
Comments may stand before the declaration; they belong to the content.

## Main definitions

* `parse`: the syntax tree of a source text, or the first mistake in it.
-/

namespace BemMarkup.Document

open Text

/-! ## Before the content -/

/-- Reads the comments that stand before everything else in a document. -/
def readLeadingComments (c : Cursor) : Except Fault (List Node × Cursor) :=
  if startsComment c.skipGaps.rest then
    match _h : readComment c.skipGaps with
    | .error fault => .error fault
    | .ok (token, next) =>
      (readLeadingComments next).map fun (nodes, last) =>
        (token.node c.skipGaps next :: nodes, last)
  else .ok ([], c.skipGaps)
termination_by c.rest.length
decreasing_by
  exact Nat.lt_of_lt_of_le ((readComment_consumes _h).length_lt (CommentToken.lexeme_ne_nil _))
    c.skipGaps_length_le

/-- Reads the declaration of a block's name, if it is at the cursor. -/
def readDeclaration (c : Cursor) : Except Fault (Option Declaration × Cursor) :=
  if c.current? = some '#' then
    let name := NameClass.block.lexeme (c.past ['#']).rest
    let last := (c.past ['#']).past name
    if name.isEmpty then .error ⟨c.offset, .invalidBlockDeclaration⟩
    else .ok (some ⟨String.ofList name, c.spanTo last⟩, last)
  else .ok (none, c)

/-! ## Documents -/

/-- Reads a whole document: comments, an optional declaration and content. -/
def readBlock (source : String) : Except Fault Block := do
  let (comments, afterComments) ← readLeadingComments (.start source.toList)
  let (declaration, afterDeclaration) ← readDeclaration afterComments
  let content ← readContent (.start afterDeclaration)
  return ⟨declaration, declaration.map (·.name), comments ++ content, 0, source⟩

/-- The syntax tree of a source text, or the first mistake in it. -/
def parse (source : String) : Except ParseError Block :=
  (readBlock source).mapError (·.locate source)

end BemMarkup.Document

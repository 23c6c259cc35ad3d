import BemMarkup.Text.Position

/-!
# Parse errors

A reader that cannot go on reports a `Fault`: the byte offset of the mistake and its
kind. `Fault.locate` turns it into a `ParseError`, which also carries the source and the
line and column, so that the message and an excerpt can be made without anything else.
-/

namespace BemMarkup.Document

open Text

/-! ## Kinds -/

/-- What is wrong with a source text. -/
inductive ParseErrorKind where
  /-- One text is required where another stands; at the end of the source the other is
  empty. -/
  | expected (wanted found : String)
  /-- A `#` without the name of a block. -/
  | invalidBlockDeclaration
  /-- Neither a tag nor a name list where an element is required. -/
  | expectedTagName
  /-- No attribute name where one is required. -/
  | invalidAttributeName
  /-- An unquoted value that the source ends in. -/
  | invalidAttribute
  /-- Neither a comma nor the closing parenthesis after an entry of an attribute list. -/
  | invalidAttributes
  /-- A quoted text that is not closed. -/
  | unterminatedString
  /-- A comment that is not closed. -/
  | unterminatedComment
  /-- The content of an element that is not closed. -/
  | unterminatedContent
deriving DecidableEq, Repr

/-- The wording of a kind of parse error. -/
def ParseErrorKind.message : ParseErrorKind → String
  | .expected wanted found => "Expected \"" ++ wanted ++ "\" instead of \"" ++ found ++ "\""
  | .invalidBlockDeclaration => "Invalid block declaration"
  | .expectedTagName => "Expected tag name"
  | .invalidAttributeName => "Invalid attribute name"
  | .invalidAttribute => "Invalid attribute"
  | .invalidAttributes => "Invalid attributes"
  | .unterminatedString => "Invalid string"
  | .unterminatedComment => "Missing \"*/\" in compound statement"
  | .unterminatedContent => "Missing \"\x7d\" in compound statement"

/-! ## Errors -/

/-- A mistake, as a reader reports it. -/
structure Fault where
  /-- The number of bytes before the mistake. -/
  offset : Nat
  /-- What is wrong. -/
  kind : ParseErrorKind
deriving DecidableEq, Repr

/-- A mistake with the source that it is in. -/
structure ParseError where
  /-- The number of bytes before the mistake. -/
  offset : Nat
  /-- The line and column of the mistake. -/
  position : Position
  /-- What is wrong. -/
  kind : ParseErrorKind
  /-- The whole source. -/
  source : String
deriving DecidableEq, Repr

/-- The error that a mistake in a source is reported as. -/
def Fault.locate (fault : Fault) (source : String) : ParseError :=
  ⟨fault.offset, .ofOffset source.toList fault.offset, fault.kind, source⟩

/-- The wording of a parse error. -/
def ParseError.message (error : ParseError) : String :=
  "Parse error at line " ++ toString error.position.line ++ ", column " ++
    toString error.position.column ++ ": " ++ error.kind.message

/-- The line of the mistake, and below it a mark under its column. -/
def ParseError.snippet (error : ParseError) : String := excerpt error.source error.position

end BemMarkup.Document

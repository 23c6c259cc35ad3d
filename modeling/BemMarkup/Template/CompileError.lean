/-!
# Compile errors

What can be wrong with a document that parses. An error names the place of the node that
is to blame, as an offset into the source of that node; it has no place if it is about
the document as a whole.
-/

namespace BemMarkup.Template

/-- What is wrong with a document. -/
inductive CompileErrorKind where
  /-- Neither the document nor its user names the block. -/
  | missingBlockName
  /-- A super call where there is no parent. -/
  | superCallWithoutParent
  /-- A super call that belongs to no named element. -/
  | superCallOutsideElement
  /-- A super call to an element that no ancestor has. -/
  | unknownSuperTarget (name : String)
  /-- A helper element for a helper that is not registered. -/
  | unknownHelper (name : String)
  /-- A helper element that names no helper. -/
  | missingHelperName
  /-- An element that has no tag and inherits none. -/
  | missingTagName (name : Option String)
deriving DecidableEq, Repr

/-- The wording of a kind of compile error. -/
def CompileErrorKind.message : CompileErrorKind → String
  | .missingBlockName => "block name is required"
  | .superCallWithoutParent => "super call used in a template without a parent"
  | .superCallOutsideElement => "super call used outside of a named element"
  | .unknownSuperTarget name => "parent template has no element named '" ++ name ++ "'"
  | .unknownHelper name => "helper \"" ++ name ++ "\" is not defined"
  | .missingHelperName => "helper element requires a tag name"
  | .missingTagName (some name) => "element '" ++ name ++ "' has no tag name"
  | .missingTagName none => "unnamed element has no tag name"

/-- A compile error with its place. -/
structure CompileError where
  /-- What is wrong. -/
  kind : CompileErrorKind
  /-- The number of bytes before the node that is to blame, if there is one. -/
  offset : Option Nat
deriving DecidableEq, Repr

/-- The wording of a compile error. -/
def CompileError.message (error : CompileError) : String :=
  match error.offset with
  | some offset => "Compile error at offset " ++ toString offset ++ ": " ++ error.kind.message
  | none => "Compile error: " ++ error.kind.message

end BemMarkup.Template

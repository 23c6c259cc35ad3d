import BemMarkup.Document.ParseError
import BemMarkup.Template.CompileError

/-!
# Errors

Everything that can go wrong between a source text and its markup. Each error has a
`message`; errors about a source also have `causes`, the messages of the errors that they
rest on, from the outermost to the innermost.
-/

namespace BemMarkup

open Document Template

/-- An error. -/
inductive Error where
  /-- A source text is not a document. -/
  | parse (error : ParseError)
  /-- A document cannot be compiled. -/
  | compile (error : CompileError)
  /-- A helper is registered too late. -/
  | registryFrozen (name : String)
  /-- A template cannot be rendered. -/
  | render (reason : String)
deriving DecidableEq, Repr

/-- The wording of an error. -/
def Error.message : Error → String
  | .parse error => error.message
  | .compile error => error.message
  | .registryFrozen name =>
    "Cannot register helper '" ++ name ++ "': templates have already been compiled"
  | .render reason => "Rendering error: " ++ reason

/-- The wordings of the errors that an error rests on, the outermost first. -/
def Error.causes : Error → List String
  | .parse error => [error.message, error.kind.message]
  | .compile error => [error.message, error.kind.message]
  | .registryFrozen _ | .render _ => []

/-- The error that has no block name to work with. -/
def Error.missingBlockName : Error := .compile ⟨.missingBlockName, none⟩

end BemMarkup

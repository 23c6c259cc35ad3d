import BemMarkup.Error
import BemMarkup.Json.Value

/-!
# Errors as JSON

A kind of error without details is written as its name, one with details as an object
with a single field that names it and holds them. An error is written the same way, with
its parts as details. Decoding takes the first of two fields of one name, as it does for
documents.
-/

namespace BemMarkup

/-! ## Encoding -/

namespace Document

/-- A kind of parse error as JSON. -/
def ParseErrorKind.toJson : ParseErrorKind → Json
  | .expected wanted found =>
    .obj [("Expected", .obj [("expected", .str wanted), ("found", .str found)])]
  | .invalidBlockDeclaration => .str "InvalidBlockDeclaration"
  | .expectedTagName => .str "ExpectedTagName"
  | .invalidAttributeName => .str "InvalidAttributeName"
  | .invalidAttribute => .str "InvalidAttribute"
  | .invalidAttributes => .str "InvalidAttributes"
  | .unterminatedString => .str "UnterminatedString"
  | .unterminatedComment => .str "UnterminatedComment"
  | .unterminatedContent => .str "UnterminatedContent"

/-- A parse error as JSON. -/
def ParseError.toJson (error : ParseError) : Json :=
  .obj [("offset", .num error.offset), ("line", .num error.position.line),
    ("column", .num error.position.column), ("kind", error.kind.toJson),
    ("source", .str error.source)]

end Document

namespace Template

/-- A kind of compile error as JSON. -/
def CompileErrorKind.toJson : CompileErrorKind → Json
  | .missingBlockName => .str "MissingBlockName"
  | .superCallWithoutParent => .str "SuperCallWithoutParent"
  | .superCallOutsideElement => .str "SuperCallOutsideElement"
  | .unknownSuperTarget name => .obj [("UnknownSuperTarget", .obj [("element_name", .str name)])]
  | .unknownHelper name => .obj [("UnknownHelper", .obj [("name", .str name)])]
  | .missingHelperName => .str "MissingHelperName"
  | .missingTagName name =>
    .obj [("MissingTagName", .obj [("element_name", .ofOption .str name)])]

/-- A compile error as JSON. -/
def CompileError.toJson (error : CompileError) : Json :=
  .obj [("kind", error.kind.toJson), ("at", .ofOption .num error.offset)]

end Template

/-- An error as JSON. -/
def Error.toJson : Error → Json
  | .parse error => .obj [("Parse", error.toJson)]
  | .compile error => .obj [("Compile", error.toJson)]
  | .registryFrozen name => .obj [("HelperRegistryFrozen", .obj [("name", .str name)])]
  | .render reason => .obj [("RenderError", .obj [("message", .str reason)])]

/-! ## Decoding -/

namespace Document

/-- Reads a kind of parse error. -/
def ParseErrorKind.ofJson? : Json → Option ParseErrorKind
  | .str "InvalidBlockDeclaration" => some .invalidBlockDeclaration
  | .str "ExpectedTagName" => some .expectedTagName
  | .str "InvalidAttributeName" => some .invalidAttributeName
  | .str "InvalidAttribute" => some .invalidAttribute
  | .str "InvalidAttributes" => some .invalidAttributes
  | .str "UnterminatedString" => some .unterminatedString
  | .str "UnterminatedComment" => some .unterminatedComment
  | .str "UnterminatedContent" => some .unterminatedContent
  | .obj [("Expected", .obj fields)] => do
    return .expected (← (Json.field "expected" fields).str?) (← (Json.field "found" fields).str?)
  | _ => none

/-- Reads a parse error. -/
def ParseError.ofJson? (value : Json) : Option ParseError := do
  let fields ← value.obj?
  return ⟨← (Json.field "offset" fields).num?,
    ⟨← (Json.field "line" fields).num?, ← (Json.field "column" fields).num?⟩,
    ← ParseErrorKind.ofJson? (Json.field "kind" fields), ← (Json.field "source" fields).str?⟩

end Document

namespace Template

/-- Reads a kind of compile error. -/
def CompileErrorKind.ofJson? : Json → Option CompileErrorKind
  | .str "MissingBlockName" => some .missingBlockName
  | .str "SuperCallWithoutParent" => some .superCallWithoutParent
  | .str "SuperCallOutsideElement" => some .superCallOutsideElement
  | .str "MissingHelperName" => some .missingHelperName
  | .obj [("UnknownSuperTarget", .obj fields)] =>
    (Json.field "element_name" fields).str?.map .unknownSuperTarget
  | .obj [("UnknownHelper", .obj fields)] => (Json.field "name" fields).str?.map .unknownHelper
  | .obj [("MissingTagName", .obj fields)] =>
    ((Json.field "element_name" fields).option? Json.str?).map .missingTagName
  | _ => none

/-- Reads a compile error. -/
def CompileError.ofJson? (value : Json) : Option CompileError := do
  let fields ← value.obj?
  return ⟨← CompileErrorKind.ofJson? (Json.field "kind" fields),
    ← (Json.field "at" fields).option? Json.num?⟩

end Template

/-- Reads an error. -/
def Error.ofJson? : Json → Option Error
  | .obj [("Parse", value)] => (Document.ParseError.ofJson? value).map .parse
  | .obj [("Compile", value)] => (Template.CompileError.ofJson? value).map .compile
  | .obj [("HelperRegistryFrozen", .obj fields)] =>
    (Json.field "name" fields).str?.map .registryFrozen
  | .obj [("RenderError", .obj fields)] => (Json.field "message" fields).str?.map .render
  | _ => none

end BemMarkup

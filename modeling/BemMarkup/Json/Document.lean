import BemMarkup.Document.Tree
import BemMarkup.Json.Value

/-!
# Documents as JSON

A record is written as an object with all its fields, a missing part as `null`, and a
node as an object with a single field that names its kind. The place and the text of a
record's span stand among its other fields.

Encoding keeps apart all that the tree keeps apart: a name list or content that is
missing, one that is empty, and a name list with an empty slot.

Decoding takes the fields of a record in any order, and it passes over fields that the
record does not have. Of a repeated field it takes the first, where a strict decoder
refuses the record; no record that is encoded here has one.
-/

namespace BemMarkup.Document

/-! ## Encoding -/

/-- The fields of a span. -/
def Span.fields (span : Span) : List (String × Json) :=
  [("at", .num span.offset), ("raw", .str span.text)]

/-- A declaration as JSON. -/
def Declaration.toJson (declaration : Declaration) : Json :=
  .obj (("block_name", .str declaration.name) :: declaration.span.fields)

/-- A super call as JSON. -/
def SuperCall.toJson (call : SuperCall) : Json :=
  .obj (("element_name", .ofOption .str call.target) :: call.span.fields)

/-- An attribute as JSON. -/
def Attribute.toJson (entry : Attribute) : Json :=
  .obj [("name", .str entry.name), ("value", .str entry.value)]

/-- An attribute list as JSON. -/
def AttributeGroup.toJson (group : AttributeGroup) : Json :=
  .obj (("super_call", .ofOption SuperCall.toJson group.superCall) ::
    ("list", .arr (group.attributes.map Attribute.toJson)) :: group.span.fields)

/-- A name list as JSON. -/
def namesToJson (names : List (Option String)) : Json := .arr (names.map (.ofOption .str))

/-- The fields of a heading. -/
def Heading.fields (heading : Heading) : List (String × Json) :=
  [("is_helper", .bool heading.isHelper), ("tag_name", .ofOption .str heading.tag),
    ("names", .ofOption namesToJson heading.names),
    ("attributes", .ofOption AttributeGroup.toJson heading.attributes)]

/-- A quoted text as JSON. -/
def Literal.toJson (literal : Literal) : Json :=
  .obj (("value", .str literal.value) :: ("multiline", .bool literal.isMultiline) ::
    literal.span.fields)

/-- A comment as JSON. -/
def Comment.toJson (comment : Comment) : Json :=
  .obj (("value", .str comment.value) :: ("multiline", .bool comment.isMultiline) ::
    comment.span.fields)

mutual

/-- A node as JSON. -/
def Node.toJson : Node → Json
  | .element element => .obj [("Element", element.toJson)]
  | .literal literal => .obj [("Text", literal.toJson)]
  | .comment comment => .obj [("Comment", comment.toJson)]
  | .superCall call => .obj [("SuperCall", call.toJson)]

/-- An element as JSON. -/
def Element.toJson : Element → Json
  | ⟨heading, content, span⟩ =>
    .obj (heading.fields ++
      ("content", match content with
        | none => .null
        | some nodes => .arr (Node.listToJson nodes)) :: span.fields)

/-- The nodes of a list as JSON. -/
def Node.listToJson : List Node → List Json
  | [] => []
  | node :: nodes => node.toJson :: Node.listToJson nodes

end

/-- A document as JSON. -/
def Block.toJson (block : Block) : Json :=
  .obj (("declaration", .ofOption Declaration.toJson block.declaration) ::
    ("name", .ofOption .str block.name) ::
    ("content", .arr (Node.listToJson block.content)) :: block.span.fields)

@[simp] theorem Node.listToJson_eq_map (nodes : List Node) :
    Node.listToJson nodes = nodes.map Node.toJson := by
  induction nodes with
  | nil => rfl
  | cons node nodes ih => rw [Node.listToJson, ih, List.map_cons]

/-! ## Decoding -/

/-- Reads a span from the fields of its record. -/
def Span.ofFields? (fields : List (String × Json)) : Option Span := do
  return ⟨← (Json.field "at" fields).num?, ← (Json.field "raw" fields).str?⟩

/-- Reads a declaration. -/
def Declaration.ofJson? (value : Json) : Option Declaration := do
  let fields ← value.obj?
  return ⟨← (Json.field "block_name" fields).str?, ← Span.ofFields? fields⟩

/-- Reads a super call. -/
def SuperCall.ofJson? (value : Json) : Option SuperCall := do
  let fields ← value.obj?
  return ⟨← (Json.field "element_name" fields).option? Json.str?, ← Span.ofFields? fields⟩

/-- Reads an attribute. -/
def Attribute.ofJson? (value : Json) : Option Attribute := do
  let fields ← value.obj?
  return ⟨← (Json.field "name" fields).str?, ← (Json.field "value" fields).str?⟩

/-- Reads an attribute list. -/
def AttributeGroup.ofJson? (value : Json) : Option AttributeGroup := do
  let fields ← value.obj?
  return ⟨← (Json.field "super_call" fields).option? SuperCall.ofJson?,
    ← (Json.field "list" fields).list? Attribute.ofJson?, ← Span.ofFields? fields⟩

/-- Reads a name list. -/
def namesOfJson? (value : Json) : Option (List (Option String)) :=
  value.list? (Json.option? Json.str?)

/-- Reads a heading from the fields of its element. -/
def Heading.ofFields? (fields : List (String × Json)) : Option Heading := do
  return ⟨← (Json.field "is_helper" fields).bool?,
    ← (Json.field "tag_name" fields).option? Json.str?,
    ← (Json.field "names" fields).option? namesOfJson?,
    ← (Json.field "attributes" fields).option? AttributeGroup.ofJson?⟩

/-- Reads a quoted text. -/
def Literal.ofJson? (value : Json) : Option Literal := do
  let fields ← value.obj?
  return ⟨← (Json.field "value" fields).str?, ← (Json.field "multiline" fields).bool?,
    ← Span.ofFields? fields⟩

/-- Reads a comment. -/
def Comment.ofJson? (value : Json) : Option Comment := do
  let fields ← value.obj?
  return ⟨← (Json.field "value" fields).str?, ← (Json.field "multiline" fields).bool?,
    ← Span.ofFields? fields⟩

mutual

/-- Reads a node. -/
def Node.ofJson? : Json → Option Node
  | .obj [(kind, value)] =>
    match kind with
    | "Element" => (Element.ofJson? value).map .element
    | "Text" => (Literal.ofJson? value).map .literal
    | "Comment" => (Comment.ofJson? value).map .comment
    | "SuperCall" => (SuperCall.ofJson? value).map .superCall
    | _ => none
  | _ => none

/-- Reads an element. -/
def Element.ofJson? : Json → Option Element
  | .obj fields => do
    return ⟨← Heading.ofFields? fields, ← Element.contentOfFields? fields, ← Span.ofFields? fields⟩
  | _ => none

/-- Reads the content of an element from its fields, the first one of that name. -/
def Element.contentOfFields? : List (String × Json) → Option (Option (List Node))
  | [] => some none
  | (key, value) :: fields =>
    if key = "content" then
      match value with
      | .null => some none
      | .arr items => (Node.listOfJson? items).map some
      | _ => none
    else Element.contentOfFields? fields

/-- Reads the nodes of a list. -/
def Node.listOfJson? : List Json → Option (List Node)
  | [] => some []
  | item :: items => do
    return (← Node.ofJson? item) :: (← Node.listOfJson? items)

end

/-- Reads a document. -/
def Block.ofJson? (value : Json) : Option Block := do
  let fields ← value.obj?
  return ⟨← (Json.field "declaration" fields).option? Declaration.ofJson?,
    ← (Json.field "name" fields).option? Json.str?,
    ← (Json.field "content" fields).arr?.bind Node.listOfJson?, ← Span.ofFields? fields⟩

end BemMarkup.Document

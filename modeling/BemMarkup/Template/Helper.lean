import BemMarkup.Document.Parse

/-!
# Helpers

A helper replaces a helper element by nodes that it computes from it. A helper is a
function of the element and of nothing else, so a template means the same whenever it is
compiled.

A `Recipe` describes one of the common helpers as data, or holds the function of any other
one. Building a helper may fail, because its nodes may be given as a source text.
-/

namespace BemMarkup.Template

open Document

/-! ## Helpers -/

/-- What replaces a helper element; `none` stands for no nodes at all. -/
abbrev Helper := Element → Option (List Node)

/-- The helper that gives back the content of its element. -/
def Helper.content : Helper := fun element => element.content

/-- The helper that gives no nodes. -/
def Helper.nothing : Helper := fun _ => none

/-- The helper that always gives the same nodes. -/
def Helper.constant (nodes : List Node) : Helper := fun _ => some nodes

/-- The helper that turns its element into an unnamed element with another tag. -/
def Helper.wrap (tag : String) : Helper := fun element =>
  some [.element ⟨⟨false, some tag, none, element.heading.attributes⟩, element.content,
    element.span⟩]

/-- The helper that repeats the content of its element. -/
def Helper.repeated (times : Nat) : Helper := fun element =>
  match element.content with
  | none | some [] => some []
  | some nodes => some (List.replicate times nodes).flatten

/-- A text node that is computed and stands nowhere in a source. -/
def computedText (value : String) : Node := .literal ⟨value, false, 0, ""⟩

/-- The helper that gives the value of an attribute as a text. -/
def Helper.attributeText (name : String) : Helper := fun element =>
  (element.heading.ownAttributes.find? fun entry => entry.name == name).map fun entry =>
    [computedText entry.value]

/-- The helper that gives the source of its element as a text. -/
def Helper.sourceText : Helper := fun element => some [computedText element.span.text]

/-! ## Recipes -/

/-- A helper to be registered. The common ones are described as data. -/
inductive Recipe where
  /-- No nodes. -/
  | nothing
  /-- The content of a document. -/
  | source (text : String)
  /-- The given nodes. -/
  | constant (nodes : List Node)
  /-- The element under another tag. -/
  | wrap (tag : String)
  /-- The content of the element. -/
  | content
  /-- The content of the element, repeated. -/
  | repeated (times : Nat)
  /-- The value of an attribute. -/
  | attributeText (name : String)
  /-- The source of the element. -/
  | sourceText
  /-- Any other helper, as it is. -/
  | function (helper : Helper)

/-- The helper that a recipe describes, unless it rests on a source that is no document. -/
def Recipe.build : Recipe → Except ParseError Helper
  | .nothing => .ok .nothing
  | .source text => (parse text).map fun block => .constant block.content
  | .constant nodes => .ok (.constant nodes)
  | .wrap tag => .ok (.wrap tag)
  | .content => .ok .content
  | .repeated times => .ok (.repeated times)
  | .attributeText name => .ok (.attributeText name)
  | .sourceText => .ok .sourceText
  | .function helper => .ok helper

end BemMarkup.Template

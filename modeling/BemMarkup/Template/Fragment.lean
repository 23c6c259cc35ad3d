import BemMarkup.Document.Tree
import BemMarkup.Html.Escape
import BemMarkup.Html.VoidTag
import BemMarkup.Text.Literal
import BemMarkup.Template.AttributeList

/-!
# Fragments and renderers

A compiled element is a `Renderer`: the fragments of its opening tag, those of its content
and its closing tag. Two things stay open in fragments until a template is rendered: the
classes of an element, which depend on the names of all blocks in the chain, and the
elements inside it, which a descendant may override. Content of an ancestor that a super
call asks for is spliced in when the call is compiled, because it never changes again.

An element with names gets a class attribute. It stands where the class is declared, or
first if it is not declared, and the declared class follows the classes of the names.
-/

namespace BemMarkup.Template

open Document

/-! ## Types -/

/-- A piece of a compiled template. -/
inductive Fragment where
  /-- Markup that is written as it is. -/
  | text (markup : String)
  /-- The classes of an element with these names. -/
  | classes (names : List (Option String))
  /-- The element of this name, as the template that is rendered has it. -/
  | element (name : String)
  /-- The content that an ancestor has for an element. -/
  | splice (content : List Fragment)

/-- A compiled element. -/
structure Renderer where
  /-- The opening tag. -/
  opening : List Fragment
  /-- What is between the tags. -/
  content : List Fragment
  /-- The closing tag, if there is one. -/
  closing : Option String

/-- All fragments of an element in the order of output. -/
def Renderer.fragments (renderer : Renderer) : List Fragment :=
  renderer.opening ++ renderer.content ++ renderer.closing.toList.map .text

/-- A region: an element without tags. -/
def Renderer.region (content : List Fragment) : Renderer := ⟨[], content, none⟩

/-! ## Tags -/

/-- The name list of an element that gets classes: one with a slot that is not empty. -/
def classSource (names : Option (List (Option String))) : Option (List (Option String)) :=
  names.filter fun slots => slots.any Option.isSome

/-- The value of an attribute as it is written: its escapes resolved, and escaped for
HTML. -/
def writtenValue (slot : Attribute) : String := Html.escape (Text.unescape slot.value)

/-- An attribute with a value that is written as it is. -/
def plainAttribute (slot : Attribute) : List Fragment :=
  [.text (" " ++ slot.name ++ "=\"" ++ writtenValue slot ++ "\"")]

/-- The class attribute of an element with names, and with a declared class. -/
def classAttribute (names : List (Option String)) (declared : String) : List Fragment :=
  [.text (" " ++ className ++ "=\""), .classes names,
    .text ((if declared = "" then "" else " " ++ declared) ++ "\"")]

/-- The attribute of a slot. In the slot of the class stand the classes of the names
too. -/
def slotAttribute (names : Option (List (Option String))) (slot : Attribute) : List Fragment :=
  match names with
  | some slots =>
    if slot.name = className then classAttribute slots (writtenValue slot)
    else plainAttribute slot
  | none => plainAttribute slot

/-- The class attribute of an element with names that declares no class. -/
def leadingClass (names : Option (List (Option String))) (attributes : AttributeList) :
    List Fragment :=
  match names with
  | some slots => if attributes.has className then [] else classAttribute slots ""
  | none => []

/-- An opening tag with its attributes. -/
def openingTag (tag : String) (attributes : AttributeList)
    (names : Option (List (Option String))) : List Fragment :=
  .text ("<" ++ tag) :: leadingClass (classSource names) attributes ++
    attributes.slots.flatMap (slotAttribute (classSource names)) ++ [.text ">"]

/-- The closing tag. Only a void element without braces has none. -/
def closingTag (tag : String) (hasBraces : Bool) : Option String :=
  if !hasBraces && Html.isVoidTag tag then none else some ("</" ++ tag ++ ">")

/-- The renderer of an element. -/
def Renderer.ofElement (tag : String) (attributes : AttributeList)
    (names : Option (List (Option String))) (hasBraces : Bool) (content : List Fragment) :
    Renderer :=
  ⟨openingTag tag attributes names, content, closingTag tag hasBraces⟩

end BemMarkup.Template

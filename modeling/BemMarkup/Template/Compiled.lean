import BemMarkup.Template.Fragment
import BemMarkup.Template.Layers

/-!
# Compiled templates

A template without a parent compiles to the fragments of its top level, its `root`, and to
three tables by element name: tags, attribute lists and renderers. A template with a
parent keeps the root of its topmost ancestor and puts its tables in front of the ones of
its parent; what stands at its own top level has no other effect than to declare
elements.

While a document is compiled, `Declarations` collects the three tables. An element enters
them in two steps, because its content is compiled in between: `announce` enters the tag
and the attributes, `define` the renderer.
-/

namespace BemMarkup.Template

/-! ## Declarations -/

/-- What a template declares itself. -/
structure Declarations where
  /-- The tags of elements. -/
  tags : Table String
  /-- The attributes of elements. -/
  attributes : Table AttributeList
  /-- The renderers of elements. -/
  renderers : Table Renderer

namespace Declarations

/-- No declarations. -/
def empty : Declarations := ⟨.empty, .empty, .empty⟩

/-- Enters the tag and the attributes of an element. -/
def announce (declared : Declarations) (name tag : String) (attributes : AttributeList) :
    Declarations :=
  ⟨declared.tags.insert name tag, declared.attributes.insert name attributes,
    declared.renderers⟩

/-- Enters the renderer of an element. -/
def define (declared : Declarations) (name : String) (renderer : Renderer) : Declarations :=
  ⟨declared.tags, declared.attributes, declared.renderers.insert name renderer⟩

end Declarations

/-! ## Templates -/

/-- A compiled template. -/
structure Compiled where
  /-- The fragments of the top level of the topmost ancestor. -/
  root : List Fragment
  /-- The tags of elements. -/
  tags : Layers String
  /-- The attributes of elements. -/
  attributes : Layers AttributeList
  /-- The renderers of elements. -/
  renderers : Layers Renderer

/-- Puts the declarations of a template in front of those of its parent. -/
def Compiled.extend (parent : Option Compiled) (root : List Fragment) (declared : Declarations) :
    Compiled :=
  match parent with
  | none => ⟨root, [declared.tags], [declared.attributes], [declared.renderers]⟩
  | some compiled =>
    ⟨compiled.root, declared.tags :: compiled.tags, declared.attributes :: compiled.attributes,
      declared.renderers :: compiled.renderers⟩

/-- The number of named elements that a template declares itself. -/
def Compiled.declaredCount (compiled : Compiled) : Nat :=
  match compiled.renderers with
  | [] => 0
  | own :: _ => own.size

end BemMarkup.Template

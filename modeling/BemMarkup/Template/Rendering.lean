import BemMarkup.Template.ClassName
import BemMarkup.Template.Compiled

/-!
# Rendering

Rendering looks every element up by name in the renderers of the template that is
rendered, so that it finds what a descendant has put in place of an ancestor's element. An
element may thereby come to contain itself. The names of the elements that are being
rendered are carried along, and a name that occurs among them is a fault.

The same list bounds the recursion: every step down adds a name that has a renderer and is
not in the list yet, so `Layers.unvisited`, the names with a renderer that are not in the
list, get fewer.

Classes depend on the names of the template alone, so the outcome of the walk is a list of
`Piece`s in which they are still open. `writePieces` fills them in.

## Main statements

* `renderElement_of_mem`, `renderElement_of_undefined`, `renderElement_of_defined`: what
  rendering an element does.
-/

namespace BemMarkup.Template

/-! ## Faults -/

/-- Why a template is not rendered. -/
inductive RenderFault where
  /-- An element contains itself; the elements on the way to it, the outermost first. -/
  | selfContaining (name : String) (through : List String)
  /-- An element has no renderer. -/
  | undefined (name : String)
deriving DecidableEq, Repr

/-- The wording of a fault. -/
def RenderFault.message : RenderFault → String
  | .selfContaining name through =>
    "element '" ++ name ++ "' contains itself through " ++ " > ".intercalate through
  | .undefined name => "no renderer for element '" ++ name ++ "'"

/-! ## Pieces -/

/-- A piece of output. -/
inductive Piece where
  /-- Markup. -/
  | text (markup : String)
  /-- The classes of an element with these names. -/
  | classes (names : List (Option String))
deriving DecidableEq, Repr

/-- A piece with its classes filled in. -/
def Piece.write (stems : List String) : Piece → String
  | .text markup => markup
  | .classes names => composeClasses stems names

/-- The markup of pieces. -/
def writePieces (stems : List String) (pieces : List Piece) : String :=
  String.join (pieces.map (Piece.write stems))

/-! ## Fragments -/

mutual

/-- The pieces of a fragment, where `call` renders an element. -/
def Fragment.pieces (call : String → Except RenderFault (List Piece)) :
    Fragment → Except RenderFault (List Piece)
  | .text markup => .ok [.text markup]
  | .classes names => .ok [.classes names]
  | .element name => call name
  | .splice content => Fragment.piecesOfAll call content

/-- The pieces of consecutive fragments. -/
def Fragment.piecesOfAll (call : String → Except RenderFault (List Piece)) :
    List Fragment → Except RenderFault (List Piece)
  | [] => .ok []
  | fragment :: fragments => do
    let first ← fragment.pieces call
    let rest ← Fragment.piecesOfAll call fragments
    return first ++ rest

end

/-! ## Elements -/

/-- The names with a value that are not in a list. -/
def Layers.unvisited {α : Type} (layers : Layers α) (active : List String) : List String :=
  layers.names.filter fun name => !active.contains name

/-- A name with a value leaves the unvisited names when it is put on the list. -/
theorem Layers.unvisited_length_lt {α : Type} {layers : Layers α} {active : List String}
    {name : String} (hactive : name ∉ active) (hname : name ∈ layers.names) :
    (layers.unvisited (active ++ [name])).length < (layers.unvisited active).length := by
  have hsplit : layers.unvisited (active ++ [name]) =
      (layers.unvisited active).filter fun key => key != name := by
    simp only [unvisited, List.filter_filter]
    refine List.filter_congr fun key _ => ?_
    rw [List.contains_eq_mem, List.contains_eq_mem]
    by_cases h : key = name <;> simp [h]
  rw [hsplit]
  refine List.length_filter_lt_length_iff_exists.2 ⟨name, ?_, by simp⟩
  exact List.mem_filter.2 ⟨hname, by simpa using hactive⟩

/-- The pieces of the element of a name, inside the elements `active`, the outermost
first. -/
def renderElement (renderers : Layers Renderer) (active : List String) (name : String) :
    Except RenderFault (List Piece) :=
  if _hactive : name ∈ active then .error (.selfContaining name active)
  else
    match _hrenderer : renderers.get? name with
    | none => .error (.undefined name)
    | some renderer =>
      Fragment.piecesOfAll (fun inner => renderElement renderers (active ++ [name]) inner)
        renderer.fragments
termination_by (renderers.unvisited active).length
decreasing_by
  exact Layers.unvisited_length_lt _hactive (Layers.mem_names_of_get? _hrenderer)

section Rules

variable {renderers : Layers Renderer} {active : List String} {name : String}

/-- An element inside itself is a fault. -/
theorem renderElement_of_mem (h : name ∈ active) :
    renderElement renderers active name = .error (.selfContaining name active) := by
  rw [renderElement, dif_pos h]

/-- An element without a renderer is a fault. -/
theorem renderElement_of_undefined (h : name ∉ active) (h' : renderers.get? name = none) :
    renderElement renderers active name = .error (.undefined name) := by
  rw [renderElement, dif_neg h]
  split <;> simp_all

/-- Any other element is rendered by its fragments. -/
theorem renderElement_of_defined {renderer : Renderer} (h : name ∉ active)
    (h' : renderers.get? name = some renderer) :
    renderElement renderers active name =
      Fragment.piecesOfAll (renderElement renderers (active ++ [name])) renderer.fragments := by
  rw [renderElement, dif_neg h]
  split <;> simp_all

end Rules

/-! ## Templates -/

/-- The pieces of a whole template. -/
def Compiled.pieces (compiled : Compiled) : Except RenderFault (List Piece) :=
  Fragment.piecesOfAll (renderElement compiled.renderers []) compiled.root

/-- The pieces of one element of a template; `none` if no template of the chain declares
it. -/
def Compiled.elementPieces (compiled : Compiled) (name : String) :
    Except RenderFault (Option (List Piece)) :=
  match compiled.renderers.get? name with
  | none => .ok none
  | some _ => (renderElement compiled.renderers [] name).map some

/-- The markup of a whole template. -/
def Compiled.render (compiled : Compiled) (stems : List String) : Except RenderFault String :=
  compiled.pieces.map (writePieces stems)

/-- The markup of one element of a template. -/
def Compiled.renderElement? (compiled : Compiled) (stems : List String) (name : String) :
    Except RenderFault (Option String) :=
  (compiled.elementPieces name).map (Option.map (writePieces stems))

end BemMarkup.Template

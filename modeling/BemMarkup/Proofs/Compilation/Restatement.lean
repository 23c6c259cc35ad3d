import BemMarkup.Proofs.Compilation.Inlining
import BemMarkup.Proofs.Interpreter.Tables
import BemMarkup.Proofs.Rendering.Locality

/-!
# Elements that are written again by their super calls

A child that writes `/n(super!){super!}` takes the tag, the attributes and the content of the
element `n` from its parent and adds nothing.  It has a renderer for the name of its own, which
is not the one of the parent: the content of the parent is spliced into it.  Both have the same
pieces all the same, and since a splice makes no call of its own, no element is found to contain
itself that would not be found there without the child.

Three things have to be right for that.  The renderer of the parent is that of an element with
the one name `n`, or the classes would differ.  It has a closing tag, because the element of the
child has braces.  And the tag and the attributes that the child finds in the tables are those
of the renderer, which needs that no element of the name is inside the declaration.

## Main definitions

* `Restates`: the nodes of a document that writes an element again.
* `Restatable`: the declaration of a name is right for that.

## Main results

* `compile_of_restates`: what such a document is compiled to.
* `samePieces_restated`: every name has the same pieces as before.
* `Restatable.exists_compile`: the document compiles, and its template has the pieces of its parent.
-/

namespace BemMarkup.Template

open Document

/-! ## Documents -/

/-- The nodes are an element with the one name, with super calls for its attributes and for its
content. -/
inductive Restates (name : String) : List Node → Prop
  /-- The places where it is written do not matter. -/
  | intro (inList inBraces list whole : Span) : Restates name
      [.element ⟨⟨false, none, some [some name], some ⟨some ⟨none, inList⟩, [], list⟩⟩,
        some [.superCall ⟨none, inBraces⟩], whole⟩]

/-- What stands for the name can be written again: it is an element with this name alone, with
braces or with a tag that has a closing tag without them, and no element of the name is inside
it. -/
structure Restatable (levels : List Level) (name : String) (occurrence : Occurrence)
    (below : List Level) (heading : Heading) (hasBraces : Bool) : Prop where
  /-- The declaration of the name. -/
  declared : declaration levels name = some (occurrence, below)
  /-- It is an element. -/
  tagged : occurrence.tagged = some (heading, hasBraces)
  /-- The element has no other name. -/
  names : heading.names = some [some name]
  /-- It is written with a closing tag. -/
  closed : hasBraces = true ∨
    ∀ tag, occurrence.tagOver below heading = some tag → Html.isVoidTag tag = false
  /-- No element of the name is inside it. -/
  inside : Lacks name occurrence.children

/-- The renderer of an element that is written again. -/
def Renderer.restated (name tag : String) (attributes : AttributeList) (renderer : Renderer) :
    Renderer :=
  .ofElement tag attributes (some [some name]) true [.splice renderer.content]

section Compilation

variable {helpers : Table Helper} {parent : Compiled} {nodes : List Node}
  {name tag : String} {attributes : AttributeList} {renderer : Renderer}

/-- The element takes its tag and its attributes from the tables of the parent, and its content
is that of the parent. -/
theorem compile_of_restates (h : Restates name nodes) (htag : parent.tags.get? name = some tag)
    (hattributes : parent.attributes.get? name = some attributes)
    (hrenderer : parent.renderers.get? name = some renderer) :
    compile helpers (some parent) nodes = .ok (.extend (some parent) [.element name]
      ((Declarations.empty.announce name tag attributes).define name
        (renderer.restated name tag attributes))) := by
  cases h with
  | intro inList inBraces list whole =>
  have hcontinues := Compiled.continues htag hattributes hrenderer
  have hheading : namedHeading (some parent) .empty
      ⟨false, none, some [some name], some ⟨some ⟨none, inList⟩, [], list⟩⟩ name whole.offset =
        .ok (tag, attributes) := by
    rw [namedHeading, hcontinues.tag _ _ _ rfl rfl, hcontinues.attributes _ _ _ rfl rfl]
    rfl
  have hcontent : superContent (some parent) (some name) ⟨none, inBraces⟩ =
      .ok renderer.content := by
    have htarget : requireTarget parent ⟨none, inBraces⟩ name = .ok renderer := by
      unfold requireTarget
      dsimp only [Option.getD_none]
      rw [hrenderer]
    show (do return (← requireTarget parent ⟨none, inBraces⟩ name).content) = _
    rw [htarget]
    rfl
  rw [compile, compileWithin_eq, compileNodes_singleton, compileNode_element,
    compileElement_named rfl rfl, hheading]
  show (Except.map _ ((compileContent helpers (some parent) _ (some name) _
    (some [.superCall ⟨none, inBraces⟩])) >>= _)) = _
  rw [compileContent_some, compileNodes_singleton, compileNode_superCall, hcontent]
  rfl

end Compilation

/-! ## Pieces -/

section Pieces

variable {parent : Compiled} {name tag : String} {attributes : AttributeList}
  {hasBraces : Bool} {content : List Fragment}

theorem closingTag_of_closed (h : hasBraces = true ∨ Html.isVoidTag tag = false) :
    closingTag tag hasBraces = closingTag tag true := by
  obtain h | h := h
  · rw [h]
  · simp [closingTag, h]

/-- The element that is written again has the pieces that it had. -/
theorem piecesOfAll_restated (hclosing : closingTag tag hasBraces = closingTag tag true)
    (call : String → Except RenderFault (List Piece)) :
    Fragment.piecesOfAll call (Renderer.restated name tag attributes
        (.ofElement tag attributes (some [some name]) hasBraces content)).fragments =
      Fragment.piecesOfAll call
        (Renderer.ofElement tag attributes (some [some name]) hasBraces content).fragments := by
  rw [Renderer.fragments, Renderer.fragments, Renderer.restated, Renderer.ofElement,
    Renderer.ofElement, hclosing]
  exact piecesOfAll_splice _ content _

/-- All other elements have it anyway. -/
theorem samePieces_restated (hclosing : closingTag tag hasBraces = closingTag tag true)
    (hrenderer : parent.renderers.get? name =
      some (.ofElement tag attributes (some [some name]) hasBraces content))
    (root : List Fragment) (other : String) :
    SamePieces parent.renderers
      (Compiled.extend (some parent) root ((Declarations.empty.announce name tag attributes).define
        name (Renderer.restated name tag attributes
          (.ofElement tag attributes (some [some name]) hasBraces content)))).renderers other := by
  show SamePieces parent.renderers
    (Table.insert .empty name (Renderer.restated name tag attributes _) :: parent.renderers) other
  by_cases hother : other = name
  · intro call
    rw [Layers.get?_cons, hother, Table.get?_insert_self, Option.some_or, hrenderer,
      Option.map_some, Option.map_some, piecesOfAll_restated hclosing]
  · apply SamePieces.of_eq
    rw [Layers.get?_cons, Table.get?_insert_of_ne _ _ hother, Table.get?_empty, Option.none_or]

end Pieces

/-! ## Chains -/

section Chains

variable {helpers : Table Helper}

/-- With more fuel, documents expand to the same levels. -/
theorem levels_mono {fuel fuel' : Nat} (hle : fuel ≤ fuel') {documents : List (List Node)} :
    ∀ {levels : List Level}, documents.mapM (expandWithin helpers fuel) = some levels →
      documents.mapM (expandWithin helpers fuel') = some levels := by
  induction documents with
  | nil => exact fun h => h
  | cons nodes documents ih =>
      intro levels h
      rw [List.mapM_cons] at h ⊢
      simp only [Option.bind_eq_bind, Option.bind_eq_some_iff] at h ⊢
      obtain ⟨level, hlevel, others, hothers, h⟩ := h
      exact ⟨level, expandWithin_mono hle hlevel, others, ih hothers, h⟩

variable {documents : List (List Node)} {compiled : Compiled} {fuel : Nat}
  {levels below : List Level} {name : String} {occurrence : Occurrence} {heading : Heading}
  {hasBraces : Bool}

/-- The tables of a compiled chain have the tag and the attributes of an element that can be
written again, and its renderer. -/
theorem Restatable.tables
    (h : Restatable levels.reverse name occurrence below heading hasBraces)
    (hcompile : compileChain helpers documents = .ok (some compiled))
    (hlevels : documents.mapM (expandWithin helpers fuel) = some levels) :
    ∃ tag attributes content, compiled.tags.get? name = some tag ∧
      compiled.attributes.get? name = some attributes ∧
      compiled.renderers.get? name =
        some (.ofElement tag attributes (some [some name]) hasBraces content) ∧
      closingTag tag hasBraces = closingTag tag true := by
  obtain ⟨enough, others, hothers, hreflects, hattributes⟩ :=
    exists_levels_of_compileChain hcompile
  have hboth := levels_mono (Nat.le_max_left fuel enough) hlevels
  rw [hothers _ (Nat.le_max_right fuel enough)] at hboth
  cases hboth
  obtain ⟨htag, hown⟩ := tables_of_declaration h.declared h.tagged h.inside
  have hrenders := hreflects.renderers name
  rw [h.declared] at hrenders
  obtain ⟨renderer, hget, content, -, hparts⟩ := hrenders
  rw [h.tagged] at hparts
  obtain ⟨tag, htagOver, rfl⟩ := hparts
  rw [declaration_name h.declared, h.names] at hget
  refine ⟨tag, _, content, ?_, (hattributes name).trans hown, hget, ?_⟩
  · exact (hreflects.tags name).trans (htag.trans htagOver)
  · exact closingTag_of_closed (h.closed.imp_right fun hvoid => hvoid tag htagOver)

/-- A document that writes such an element again compiles, and its template has the pieces of its
parent, as a whole and in every element. -/
theorem Restatable.exists_compile
    (h : Restatable levels.reverse name occurrence below heading hasBraces)
    (hcompile : compileChain helpers documents = .ok (some compiled))
    (hlevels : documents.mapM (expandWithin helpers fuel) = some levels)
    {nodes : List Node} (hnodes : Restates name nodes) :
    ∃ child, compile helpers (some compiled) nodes = .ok child ∧
      child.pieces = compiled.pieces ∧
      ∀ other, child.elementPieces other = compiled.elementPieces other := by
  obtain ⟨tag, attributes, content, htag, hattributes, hrenderer, hclosing⟩ :=
    h.tables hcompile hlevels
  have hsame := samePieces_restated hclosing hrenderer [.element name]
  refine ⟨_, compile_of_restates hnodes htag hattributes hrenderer, ?_, ?_⟩
  · exact Compiled.pieces_eq_of_reaches rfl fun other _ => hsame other
  · exact Compiled.elementPieces_eq_of_samePieces hsame

end Chains

end BemMarkup.Template

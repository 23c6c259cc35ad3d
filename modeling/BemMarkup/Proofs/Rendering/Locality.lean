import BemMarkup.Proofs.Compilation.Closure
import BemMarkup.Proofs.Rendering.CallGraph

/-!
# Rendering looks at what it reaches

Rendering goes from the root of a template along the calls of the call graph.  A renderer that is
not reached in this way is never looked up, and of one that is reached only its pieces are seen,
not how its fragments are put together: content may be spliced in or stand there directly.

So two tables of renderers cannot be told apart where they give the same pieces to every name
that is reached.  The names that are reached are any set that is closed under calls; the calls of
both tables count, but if one set is closed under the calls of one table, it is enough that the
pieces of the other table are the same.

## Main definitions

* `SamePieces`: two tables that give the same pieces to a name.
* `Compiled.Reaches`: the names that rendering a template may come to.

## Main results

* `renderElement_eq_of_reached`: what is not reached does not matter.
* `Compiled.pieces_eq_of_reaches`: nor does it to the pieces of a template.
-/

namespace BemMarkup.Template

open Relation

/-! ## Pieces of fragments -/

section Fragments

variable {call : String → Except RenderFault (List Piece)}

theorem piecesOfAll_append (xs ys : List Fragment) :
    Fragment.piecesOfAll call (xs ++ ys) = do
      let first ← Fragment.piecesOfAll call xs
      let rest ← Fragment.piecesOfAll call ys
      return first ++ rest := by
  induction xs with
  | nil =>
      rw [List.nil_append, Fragment.piecesOfAll_nil]
      exact (bind_pure _).symm
  | cons x xs ih =>
      simp only [List.cons_append, Fragment.piecesOfAll, ih, bind_assoc, pure_bind,
        List.append_assoc]

/-- Content that is spliced in has the pieces that it has where it stands directly. -/
theorem piecesOfAll_splice (before content after : List Fragment) :
    Fragment.piecesOfAll call (before ++ [.splice content] ++ after) =
      Fragment.piecesOfAll call (before ++ content ++ after) := by
  have hsplice : Fragment.piecesOfAll call [.splice content] =
      Fragment.piecesOfAll call content := by
    rw [Fragment.piecesOfAll, Fragment.pieces_splice, Fragment.piecesOfAll_nil]
    cases Fragment.piecesOfAll call content with
    | error fault => rfl
    | ok pieces => exact congrArg Except.ok (List.append_nil pieces)
  simp only [piecesOfAll_append, hsplice]

end Fragments

/-! ## Tables with the same pieces -/

/-- A name has a renderer in both tables or in neither, and the renderers have the same pieces,
whatever the calls in them are rendered to. -/
def SamePieces (renderers renderers' : Layers Renderer) (name : String) : Prop :=
  ∀ call : String → Except RenderFault (List Piece),
    (renderers.get? name).map (fun renderer => Fragment.piecesOfAll call renderer.fragments) =
      (renderers'.get? name).map (fun renderer => Fragment.piecesOfAll call renderer.fragments)

section SamePieces

variable {renderers renderers' : Layers Renderer} {name : String}

theorem SamePieces.of_eq (h : renderers.get? name = renderers'.get? name) :
    SamePieces renderers renderers' name := by
  intro call
  rw [h]

theorem SamePieces.isSome_eq (h : SamePieces renderers renderers' name) :
    (renderers.get? name).isSome = (renderers'.get? name).isSome := by
  have hsome := congrArg Option.isSome (h fun _ => .ok [])
  rwa [Option.isSome_map, Option.isSome_map] at hsome

/-- If all names that are reached have the same pieces in both tables, they are rendered alike. -/
theorem renderElement_eq_of_reached {reached : String → Prop}
    (hclosed : ∀ outer inner, reached outer → Calls renderers outer inner → reached inner)
    (hsame : ∀ name, reached name → SamePieces renderers renderers' name)
    (active : List String) (hname : reached name) :
    renderElement renderers active name = renderElement renderers' active name := by
  induction active, name using renderElement.induct renderers with
  | case1 active name hactive => rw [renderElement_of_mem hactive, renderElement_of_mem hactive]
  | case2 active name hactive hnone =>
      have hsome := (hsame name hname).isSome_eq
      rw [hnone, Option.isSome_none] at hsome
      have hnone' : renderers'.get? name = none := by simpa using hsome.symm
      rw [renderElement_of_undefined hactive hnone, renderElement_of_undefined hactive hnone']
  | case3 active name hactive renderer hrenderer ih =>
      have hpieces := hsame name hname
      have hsome := hpieces.isSome_eq
      rw [hrenderer, Option.isSome_some] at hsome
      obtain ⟨renderer', hrenderer'⟩ := Option.isSome_iff_exists.1 hsome.symm
      have hfragments := hpieces (renderElement renderers' (active ++ [name]))
      rw [hrenderer, hrenderer', Option.map_some, Option.map_some] at hfragments
      rw [renderElement_of_defined hactive hrenderer, renderElement_of_defined hactive hrenderer',
        ← Option.some.inj hfragments]
      apply Fragment.piecesOfAll_congr
      intro inner hinner
      exact ih inner (hclosed name inner hname (.of_get? hrenderer hinner))

end SamePieces

/-! ## Templates -/

/-- Rendering the template may come to the element of the name: the root calls it, or calls
another one from which it is called in one step or more. -/
def Compiled.Reaches (compiled : Compiled) (name : String) : Prop :=
  ∃ first ∈ Fragment.callsOfAll compiled.root,
    ReflTransGen (Calls compiled.renderers) first name

section Templates

variable {compiled compiled' : Compiled}

theorem Compiled.Reaches.of_calls {outer inner : String} (h : compiled.Reaches outer)
    (hcalls : Calls compiled.renderers outer inner) : compiled.Reaches inner := by
  obtain ⟨first, hfirst, hreach⟩ := h
  exact ⟨first, hfirst, hreach.tail hcalls⟩

/-- What is reached is mentioned somewhere. -/
theorem Compiled.Reaches.mem_mentions {name : String} (h : compiled.Reaches name) :
    name ∈ compiled.mentions := by
  obtain ⟨first, hfirst, hpath⟩ := h
  cases hpath with
  | refl => exact List.mem_append_left _ hfirst
  | tail _ hcalls =>
      obtain ⟨renderer, hget, hname⟩ := hcalls
      exact List.mem_append_right _ (Layers.calls_subset_of_get? hget hname)

/-- A template is rendered to the pieces of another one with its root if both have the same pieces
for all that is reached. -/
theorem Compiled.pieces_eq_of_reaches (hroot : compiled'.root = compiled.root)
    (hsame : ∀ name, compiled.Reaches name →
      SamePieces compiled.renderers compiled'.renderers name) :
    compiled'.pieces = compiled.pieces := by
  rw [Compiled.pieces, Compiled.pieces, hroot]
  apply Fragment.piecesOfAll_congr
  intro name hname
  have hreached : compiled.Reaches name := ⟨name, hname, .refl⟩
  exact (renderElement_eq_of_reached (fun _ _ h => h.of_calls) hsame [] hreached).symm

/-- If they have the same pieces for all names, so have their elements. -/
theorem Compiled.elementPieces_eq_of_samePieces
    (hsame : ∀ name, SamePieces compiled.renderers compiled'.renderers name) (name : String) :
    compiled'.elementPieces name = compiled.elementPieces name := by
  have helement : renderElement compiled.renderers [] name =
      renderElement compiled'.renderers [] name :=
    renderElement_eq_of_reached (fun _ _ _ _ => trivial) (fun name _ => hsame name) [] trivial
  have hsome := (hsame name).isSome_eq
  rw [Compiled.elementPieces, Compiled.elementPieces, helement]
  cases hget : compiled.renderers.get? name with
  | none =>
      rw [hget, Option.isSome_none] at hsome
      have hget' : compiled'.renderers.get? name = none := by simpa using hsome.symm
      rw [hget']
  | some renderer =>
      rw [hget, Option.isSome_some] at hsome
      obtain ⟨renderer', hget'⟩ := Option.isSome_iff_exists.1 hsome.symm
      rw [hget']

end Templates

end BemMarkup.Template

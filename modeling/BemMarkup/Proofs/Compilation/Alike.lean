import Mathlib.Data.Option.Basic
import BemMarkup.Proofs.Compilation.Derivation
import BemMarkup.Template.Rendering

/-!
# Compiled templates that cannot be told apart

A derived template has no document.  It compiles to the root of its parent, with an empty layer
of tables in front of those of its parent, so it is not the same compiled form.  But nothing that
is done with a compiled form looks at its layers: a name is looked up in all of them.  Two forms
are `Alike` if they have the same root and give the same tag, attributes and renderer to every
name.

Whatever is compiled over one of two alike forms is compiled over the other one, with the same
mistakes and to alike forms again.  So a document without nodes may be put anywhere in a chain,
except at its top, where there is no root to take over.

## Main definitions

* `Compiled.Alike`: the same root, and the same answers for every name.
* `Agree`: chains with the same mistake, or with alike forms.

## Main results

* `compileNodes_congr`: over alike parents, the same is compiled.
* `agree_insert_empty`: an empty document inside a chain makes no difference to what comes after.
* `Compiled.Alike.pieces`, `Compiled.Alike.elementPieces`: nor does it to what is rendered.
-/

namespace BemMarkup.Template

open Document

/-! ## Forms that cannot be told apart -/

/-- Two compiled templates with the same root in which every name has the same tag, the same
attributes and the same renderer, in whatever layers these are found. -/
structure Compiled.Alike (compiled compiled' : Compiled) : Prop where
  /-- The roots are the same. -/
  root : compiled.root = compiled'.root
  /-- So are the tags. -/
  tags : ∀ name, compiled.tags.get? name = compiled'.tags.get? name
  /-- So are the attributes. -/
  attributes : ∀ name, compiled.attributes.get? name = compiled'.attributes.get? name
  /-- So are the renderers. -/
  renderers : ∀ name, compiled.renderers.get? name = compiled'.renderers.get? name

section Alike

variable {compiled compiled' : Compiled} {parent parent' : Option Compiled}

theorem Compiled.Alike.refl (compiled : Compiled) : compiled.Alike compiled :=
  ⟨rfl, fun _ => rfl, fun _ => rfl, fun _ => rfl⟩

/-- The same declarations over alike parents give alike templates. -/
theorem Compiled.Alike.extend (h : Option.Rel Compiled.Alike parent parent')
    (root : List Fragment) (declared : Declarations) :
    (Compiled.extend parent root declared).Alike (Compiled.extend parent' root declared) := by
  cases h with
  | none => exact .refl _
  | some h =>
      refine ⟨h.root, fun name => ?_, fun name => ?_, fun name => ?_⟩
      · exact (Layers.get?_cons _ _ _).trans (h.tags name ▸ (Layers.get?_cons _ _ _).symm)
      · exact (Layers.get?_cons _ _ _).trans (h.attributes name ▸ (Layers.get?_cons _ _ _).symm)
      · exact (Layers.get?_cons _ _ _).trans (h.renderers name ▸ (Layers.get?_cons _ _ _).symm)

/-- A template without declarations is like its parent. -/
theorem Compiled.Alike.extend_empty (compiled : Compiled) (root : List Fragment) :
    compiled.Alike (Compiled.extend (some compiled) root .empty) :=
  ⟨rfl, fun _ => rfl, fun _ => rfl, fun _ => rfl⟩

/-! ## Compiling over alike parents -/

theorem inheritedTag?_congr (h : Option.Rel Compiled.Alike parent parent') (name : String) :
    inheritedTag? parent name = inheritedTag? parent' name := by
  cases h with
  | none => rfl
  | some h => exact h.tags name

theorem requireTarget_congr (h : compiled.Alike compiled') (call : SuperCall) (around : String) :
    requireTarget compiled call around = requireTarget compiled' call around := by
  rw [requireTarget, requireTarget, h.renderers]

theorem inheritedAttributes_congr (h : Option.Rel Compiled.Alike parent parent')
    (heading : Heading) (name : String) :
    inheritedAttributes parent heading name = inheritedAttributes parent' heading name := by
  cases h with
  | none => rfl
  | @some compiled compiled' h =>
      rw [inheritedAttributes, inheritedAttributes]
      cases heading.superCall? with
      | none => rfl
      | some call =>
          change (requireTarget compiled call name >>= fun _ => _) =
            (requireTarget compiled' call name >>= fun _ => _)
          rw [requireTarget_congr h, h.attributes]

theorem namedHeading_congr (h : Option.Rel Compiled.Alike parent parent')
    (declared : Declarations) (heading : Heading) (name : String) (offset : Nat) :
    namedHeading parent declared heading name offset =
      namedHeading parent' declared heading name offset := by
  rw [namedHeading, namedHeading, tagOf, tagOf, inheritedTag?_congr h,
    inheritedAttributes_congr h]

theorem unnamedHeading_congr (h : Option.Rel Compiled.Alike parent parent') (heading : Heading)
    (offset : Nat) :
    unnamedHeading parent heading offset = unnamedHeading parent' heading offset := by
  cases h <;> rfl

theorem superContent_congr (h : Option.Rel Compiled.Alike parent parent')
    (scope : Option String) (call : SuperCall) :
    superContent parent scope call = superContent parent' scope call := by
  cases h with
  | none => rfl
  | @some compiled compiled' h =>
      cases scope with
      | none => rfl
      | some around =>
          change (requireTarget compiled call around >>= fun renderer => _) =
            (requireTarget compiled' call around >>= fun renderer => _)
          rw [requireTarget_congr h]

/-- Over alike parents, the nodes of a document are compiled alike. -/
theorem compileNodes_congr (h : Option.Rel Compiled.Alike parent parent')
    (helpers : Table Helper) (again : Compiler) (scope : Option String) (declared : Declarations)
    (nodes : List Node) :
    compileNodes helpers parent again scope declared nodes =
      compileNodes helpers parent' again scope declared nodes := by
  induction nodes using Node.inductAll generalizing scope declared with
  | nil => rw [compileNodes_nil, compileNodes_nil]
  | element element nodes ihChildren ih =>
      have helement : compileElement helpers parent again scope declared element =
          compileElement helpers parent' again scope declared element := by
        cases hhelper : element.heading.isHelper with
        | true => rw [compileElement_helper hhelper, compileElement_helper hhelper]
        | false =>
            cases hname : element.heading.name? with
            | none =>
                rw [compileElement_unnamed hhelper hname, compileElement_unnamed hhelper hname,
                  unnamedHeading_congr h]
                simp only [compileContent_eq_compileNodes, ihChildren]
            | some name =>
                rw [compileElement_named hhelper hname, compileElement_named hhelper hname,
                  namedHeading_congr h]
                simp only [compileContent_eq_compileNodes, ihChildren]
      simp only [compileNodes_cons, compileNode_element, helement, ih]
  | literal literal nodes ih => simp only [compileNodes_cons, compileNode_literal, ih]
  | comment comment nodes ih => simp only [compileNodes_cons, compileNode_comment, ih]
  | superCall call nodes ih =>
      simp only [compileNodes_cons, compileNode_superCall, superContent_congr h, ih]

theorem compileWithin_congr (h : Option.Rel Compiled.Alike parent parent')
    (helpers : Table Helper) (budget : Nat) :
    compileWithin helpers parent budget = compileWithin helpers parent' budget := by
  induction budget with
  | zero =>
      funext scope declared nodes
      exact compileNodes_congr h helpers _ scope declared nodes
  | succ budget ih =>
      funext scope declared nodes
      rw [compileWithin, compileWithin, ih]
      exact compileNodes_congr h helpers _ scope declared nodes

end Alike

/-! ## Chains -/

/-- Outcomes of two chains: the same mistake, or forms that are alike. -/
inductive Agree : Except Stop (Option Compiled) → Except Stop (Option Compiled) → Prop
  /-- Both chains have a mistake. -/
  | stopped (stop : Stop) : Agree (.error stop) (.error stop)
  /-- Both chains compile. -/
  | forms {form form' : Option Compiled} :
      Option.Rel Compiled.Alike form form' → Agree (.ok form) (.ok form')

section Chains

variable {helpers : Table Helper}

/-- A document makes the same of alike parents. -/
theorem agree_compile {parent parent' : Option Compiled}
    (h : Option.Rel Compiled.Alike parent parent') (nodes : List Node) :
    Agree ((compile helpers parent nodes).map some) ((compile helpers parent' nodes).map some) := by
  rw [compile, compile, compileWithin_congr h]
  cases compileWithin helpers parent' (Node.depthOfAll nodes + helperReserve) none .empty nodes with
  | error stop => exact .stopped stop
  | ok output => exact .forms (.some (.extend h output.1 output.2))

/-- Chains that agree still do when the same documents are put at their ends. -/
theorem agree_append {documents documents' : List (List Node)}
    (h : Agree (compileChain helpers documents) (compileChain helpers documents'))
    (later : List (List Node)) :
    Agree (compileChain helpers (documents ++ later))
      (compileChain helpers (documents' ++ later)) := by
  induction later using List.reverseRecOn with
  | nil => simpa using h
  | append_singleton later nodes ih =>
      rw [← List.append_assoc, ← List.append_assoc, compileChain_append_singleton,
        compileChain_append_singleton]
      generalize compileChain helpers (documents ++ later) = outcome at ih
      generalize compileChain helpers (documents' ++ later) = outcome' at ih
      cases ih with
      | stopped stop => exact .stopped stop
      | forms h => exact agree_compile h nodes

/-- Without nodes nothing is compiled and nothing declared. -/
theorem compile_nil (parent : Option Compiled) :
    compile helpers parent [] = .ok (.extend parent [] .empty) := by
  have hnil : ∀ budget,
      compileWithin helpers parent budget none .empty [] = .ok ([], .empty) := by
    intro budget
    cases budget <;> rw [compileWithin, compileNodes_nil]
  rw [compile, hnil]
  rfl

/-- An empty document at the end of a chain makes no difference. -/
theorem agree_append_empty {documents : List (List Node)} (hne : documents ≠ []) :
    Agree (compileChain helpers documents) (compileChain helpers (documents ++ [[]])) := by
  rw [compileChain_append_singleton]
  cases hparent : compileChain helpers documents with
  | error stop => exact .stopped stop
  | ok parent =>
      cases parent with
      | none => exact absurd rfl (compileChain_ne_none hparent hne)
      | some compiled =>
          change Agree _ ((compile helpers (some compiled) []).map some)
          rw [compile_nil]
          exact .forms (.some (.extend_empty compiled []))

/-- An empty document makes no difference wherever it stands behind another one. -/
theorem agree_insert_empty {documents : List (List Node)} (hne : documents ≠ [])
    (later : List (List Node)) :
    Agree (compileChain helpers (documents ++ later))
      (compileChain helpers (documents ++ [] :: later)) := by
  have h : Agree (compileChain helpers (documents ++ later))
      (compileChain helpers (documents ++ [[]] ++ later)) :=
    agree_append (agree_append_empty hne) later
  rwa [List.append_assoc, List.singleton_append] at h

end Chains

/-! ## Rendering -/

section Rendering

variable {compiled compiled' : Compiled}

/-- Elements are rendered alike where every name has the same renderer. -/
theorem renderElement_congr {renderers renderers' : Layers Renderer}
    (h : ∀ name, renderers.get? name = renderers'.get? name) (active : List String)
    (name : String) :
    renderElement renderers active name = renderElement renderers' active name := by
  induction active, name using renderElement.induct renderers with
  | case1 active name hactive => rw [renderElement_of_mem hactive, renderElement_of_mem hactive]
  | case2 active name hactive hnone =>
      rw [renderElement_of_undefined hactive hnone,
        renderElement_of_undefined hactive ((h name).symm.trans hnone)]
  | case3 active name hactive renderer hrenderer ih =>
      rw [renderElement_of_defined hactive hrenderer,
        renderElement_of_defined hactive ((h name).symm.trans hrenderer), funext ih]

/-- Alike forms are rendered to the same pieces. -/
theorem Compiled.Alike.pieces (h : compiled.Alike compiled') :
    compiled.pieces = compiled'.pieces := by
  rw [Compiled.pieces, Compiled.pieces, h.root, funext (renderElement_congr h.renderers [])]

/-- So are their elements. -/
theorem Compiled.Alike.elementPieces (h : compiled.Alike compiled') (name : String) :
    compiled.elementPieces name = compiled'.elementPieces name := by
  rw [Compiled.elementPieces, Compiled.elementPieces, h.renderers,
    renderElement_congr h.renderers []]

end Rendering

end BemMarkup.Template

import Mathlib.Data.List.Induction
import BemMarkup.Template.Compilation

/-!
# Compilation as a relation

`compileNodes` goes down through elements and, with a budget, through the nodes of helpers.
What comes out of it is built in a few ways only, one for each kind of node, and neither the
budget nor the nesting of the calls matters to them.  `Compiles` lists these ways.  A
property of everything that is compiled is an induction over it, with one case for each
kind of node.

A chain is compiled from its topmost document down, and `compileChain_induct` is the
induction over it: a property of compiled chains passes from a template to the template
that extends it.

## Main results

* `compiles_of_compileWithin`: whatever is compiled has a derivation.
* `exists_compiles_of_compile`: so has every compiled template.
* `compileChain_induct`: induction over a chain.
-/

namespace BemMarkup.Template

open Document

/-! ## Derivations -/

section Derivations

variable (helpers : Table Helper) (parent : Option Compiled)

/-- Inside the named element `scope`, the nodes compile to the fragments and turn the
declarations before them into those after them. -/
inductive Compiles : (scope : Option String) → (before : Declarations) → List Node →
    List Fragment → (after : Declarations) → Prop
  /-- No nodes. -/
  | nil {scope : Option String} {declared : Declarations} :
      Compiles scope declared [] [] declared
  /-- A node and the nodes after it. -/
  | cons {scope : Option String} {before middle after : Declarations} {node : Node}
      {nodes : List Node} {first rest : List Fragment} :
      Compiles scope before [node] first middle → Compiles scope middle nodes rest after →
      Compiles scope before (node :: nodes) (first ++ rest) after
  /-- A text. -/
  | literal {scope : Option String} {declared : Declarations} (literal : Literal) :
      Compiles scope declared [.literal literal] [.text (Text.unescape literal.value)] declared
  /-- A comment. -/
  | comment {scope : Option String} {declared : Declarations} (comment : Comment) :
      Compiles scope declared [.comment comment] [] declared
  /-- A super call. -/
  | superCall {scope : Option String} {declared : Declarations} {call : SuperCall}
      {content : List Fragment} : superContent parent scope call = .ok content →
      Compiles scope declared [.superCall call] [.splice content] declared
  /-- An element with a name. -/
  | named {scope : Option String} {before inside : Declarations} {element : Element}
      {name tag : String} {attributes : AttributeList} {content : List Fragment} :
      element.heading.isHelper = false → element.heading.name? = some name →
      namedHeading parent before element.heading name element.span.offset =
        .ok (tag, attributes) →
      Compiles (some name) (before.announce name tag attributes) (Node.element element).children
        content inside →
      Compiles scope before [.element element] [.element name] (inside.define name
        (.ofElement tag attributes element.heading.names element.content.isSome content))
  /-- An element without a name. -/
  | unnamed {scope : Option String} {before inside : Declarations} {element : Element}
      {tag : String} {attributes : AttributeList} {content : List Fragment} :
      element.heading.isHelper = false → element.heading.name? = none →
      unnamedHeading parent element.heading element.span.offset = .ok (tag, attributes) →
      Compiles scope before (Node.element element).children content inside →
      Compiles scope before [.element element] (Renderer.ofElement tag attributes
        element.heading.names element.content.isSome content).fragments inside
  /-- A helper element with a name. -/
  | region {scope : Option String} {before inside : Declarations} {element : Element}
      {helper : Helper} {name : String} {content : List Fragment} :
      element.heading.isHelper = true → requireHelper helpers element = .ok helper →
      element.heading.name? = some name →
      Compiles (some name) before ((helper element).getD []) content inside →
      Compiles scope before [.element element] [.element name]
        (inside.define name (.region content))
  /-- A helper element without a name. -/
  | helper {scope : Option String} {before after : Declarations} {element : Element}
      {helper : Helper} {fragments : List Fragment} :
      element.heading.isHelper = true → requireHelper helpers element = .ok helper →
      element.heading.name? = none →
      Compiles scope before ((helper element).getD []) fragments after →
      Compiles scope before [.element element] fragments after

end Derivations

section Soundness

variable {helpers : Table Helper} {parent : Option Compiled}

/-- Without nodes there is no output, and nothing is declared. -/
theorem Compiles.of_nil {scope : Option String} {before after : Declarations}
    {fragments : List Fragment} (h : Compiles helpers parent scope before [] fragments after) :
    fragments = [] ∧ after = before := by
  cases h
  exact ⟨rfl, rfl⟩

/-- A compiler has a derivation for all that it gives. -/
def Compiler.Derives (helpers : Table Helper) (parent : Option Compiled) (compiler : Compiler) :
    Prop :=
  ∀ {scope : Option String} {before : Declarations} {nodes : List Node}
    {fragments : List Fragment} {after : Declarations},
    compiler scope before nodes = .ok (fragments, after) →
      Compiles helpers parent scope before nodes fragments after

variable {again : Compiler}

theorem compiles_of_compileHelper (hagain : again.Derives helpers parent)
    {scope : Option String} {before after : Declarations} {element : Element}
    {fragments : List Fragment} (hhelper : element.heading.isHelper = true)
    (h : compileHelper helpers again scope before element = .ok (fragments, after)) :
    Compiles helpers parent scope before [.element element] fragments after := by
  obtain ⟨helper, hrequire, h⟩ := bind_eq_ok_iff.1 h
  cases hname : element.heading.name? with
  | none =>
      rw [show element.name? = none from hname] at h
      exact .helper hhelper hrequire hname (hagain h)
  | some name =>
      rw [show element.name? = some name from hname] at h
      obtain ⟨⟨content, inside⟩, hcontent, h⟩ := bind_eq_ok_iff.1 h
      cases h
      exact .region hhelper hrequire hname (hagain hcontent)

/-- What is compiled for an element has a derivation if its children have. -/
theorem compiles_of_compileElement (hagain : again.Derives helpers parent) {element : Element}
    (hchildren : ∀ {scope before fragments after},
      compileNodes helpers parent again scope before (Node.element element).children =
          .ok (fragments, after) →
        Compiles helpers parent scope before (Node.element element).children fragments after)
    {scope : Option String} {before after : Declarations} {fragments : List Fragment}
    (h : compileElement helpers parent again scope before element = .ok (fragments, after)) :
    Compiles helpers parent scope before [.element element] fragments after := by
  cases hhelper : element.heading.isHelper with
  | true =>
      rw [compileElement_helper hhelper] at h
      exact compiles_of_compileHelper hagain hhelper h
  | false =>
      cases hname : element.heading.name? with
      | none =>
          rw [compileElement_unnamed hhelper hname] at h
          obtain ⟨⟨tag, attributes⟩, hheading, h⟩ := bind_eq_ok_iff.1 h
          obtain ⟨⟨content, inside⟩, hcontent, h⟩ := bind_eq_ok_iff.1 h
          cases h
          rw [compileContent_eq_compileNodes] at hcontent
          exact .unnamed hhelper hname hheading (hchildren hcontent)
      | some name =>
          rw [compileElement_named hhelper hname] at h
          obtain ⟨⟨tag, attributes⟩, hheading, h⟩ := bind_eq_ok_iff.1 h
          obtain ⟨⟨content, inside⟩, hcontent, h⟩ := bind_eq_ok_iff.1 h
          cases h
          rw [compileContent_eq_compileNodes] at hcontent
          exact .named hhelper hname hheading (hchildren hcontent)

/-- A node is compiled by a rule of its own, and the nodes after it from what it leaves. -/
theorem compiles_of_compileNodes_cons {node : Node} {nodes : List Node} {scope : Option String}
    {before after : Declarations} {fragments : List Fragment}
    (hnode : ∀ {first middle},
      compileNode helpers parent again scope before node = .ok (first, middle) →
        Compiles helpers parent scope before [node] first middle)
    (hnodes : ∀ {middle rest last},
      compileNodes helpers parent again scope middle nodes = .ok (rest, last) →
        Compiles helpers parent scope middle nodes rest last)
    (h : compileNodes helpers parent again scope before (node :: nodes) =
      .ok (fragments, after)) :
    Compiles helpers parent scope before (node :: nodes) fragments after := by
  rw [compileNodes_cons] at h
  obtain ⟨⟨first, middle⟩, hfirst, h⟩ := bind_eq_ok_iff.1 h
  obtain ⟨⟨rest, last⟩, hrest, h⟩ := bind_eq_ok_iff.1 h
  cases h
  exact .cons (hnode hfirst) (hnodes hrest)

/-- What is compiled for nodes has a derivation if what is compiled for the nodes of their
helpers has. -/
theorem compiles_of_compileNodes (hagain : again.Derives helpers parent) :
    Compiler.Derives helpers parent (compileNodes helpers parent again) := by
  intro scope before nodes
  induction nodes using Node.inductAll generalizing scope before with
  | nil =>
      intro fragments after h
      rw [compileNodes_nil] at h
      cases h
      exact .nil
  | element element nodes ihChildren ih =>
      intro fragments after h
      refine compiles_of_compileNodes_cons (fun h => ?_) ih h
      rw [compileNode_element] at h
      exact compiles_of_compileElement hagain ihChildren h
  | literal literal nodes ih =>
      intro fragments after h
      refine compiles_of_compileNodes_cons (fun h => ?_) ih h
      rw [compileNode_literal] at h
      cases h
      exact .literal literal
  | comment comment nodes ih =>
      intro fragments after h
      refine compiles_of_compileNodes_cons (fun h => ?_) ih h
      rw [compileNode_comment] at h
      cases h
      exact .comment comment
  | superCall call nodes ih =>
      intro fragments after h
      refine compiles_of_compileNodes_cons (fun h => ?_) ih h
      rw [compileNode_superCall] at h
      obtain ⟨content, hcontent, h⟩ := bind_eq_ok_iff.1 h
      cases h
      exact .superCall hcontent

/-- Whatever the budget, what is compiled within it has a derivation. -/
theorem compiles_of_compileWithin (budget : Nat) :
    Compiler.Derives helpers parent (compileWithin helpers parent budget) := by
  induction budget with
  | zero =>
      refine compiles_of_compileNodes ?_
      intro scope before nodes fragments after h
      cases h
  | succ budget ih => exact compiles_of_compileNodes ih

/-! ## Templates -/

/-- A compiled template consists of the fragments and the declarations of a derivation. -/
theorem exists_compiles_of_compile {nodes : List Node} {compiled : Compiled}
    (h : compile helpers parent nodes = .ok compiled) :
    ∃ root declared, Compiles helpers parent none .empty nodes root declared ∧
      compiled = .extend parent root declared := by
  obtain ⟨⟨root, declared⟩, hcompiled, rfl⟩ := map_eq_ok_iff.1 h
  exact ⟨root, declared, compiles_of_compileWithin _ hcompiled, rfl⟩

end Soundness

/-! ## Chains -/

/-- The last document of a chain is compiled over what the documents before it give. -/
theorem compileChain_append_singleton (helpers : Table Helper) (documents : List (List Node))
    (nodes : List Node) :
    compileChain helpers (documents ++ [nodes]) =
      compileChain helpers documents >>= fun parent =>
        (compile helpers parent nodes).map some := by
  rw [compileChain, List.foldlM_append]
  simp only [List.foldlM_cons, List.foldlM_nil, bind_pure]
  rfl

/-- A property of compiled chains holds if it passes from a template, or from none, to the
template that extends it. -/
theorem compileChain_induct {helpers : Table Helper}
    {motive : List (List Node) → Option Compiled → Prop} (nil : motive [] none)
    (extend : ∀ documents parent nodes compiled,
      compileChain helpers documents = .ok parent → motive documents parent →
      compile helpers parent nodes = .ok compiled → motive (documents ++ [nodes]) (some compiled))
    (documents : List (List Node)) :
    ∀ {result : Option Compiled}, compileChain helpers documents = .ok result →
      motive documents result := by
  induction documents using List.reverseRecOn with
  | nil =>
      intro result h
      cases h
      exact nil
  | append_singleton documents nodes ih =>
      intro result h
      rw [compileChain_append_singleton] at h
      obtain ⟨parent, hparent, h⟩ := bind_eq_ok_iff.1 h
      obtain ⟨compiled, hcompiled, rfl⟩ := map_eq_ok_iff.1 h
      exact extend documents parent nodes compiled hparent (ih hparent) hcompiled

/-- Something comes out of every chain but the empty one. -/
theorem compileChain_ne_none {helpers : Table Helper} {documents : List (List Node)}
    {result : Option Compiled} (h : compileChain helpers documents = .ok result)
    (hne : documents ≠ []) : result ≠ none := by
  refine compileChain_induct (motive := fun documents result => documents ≠ [] → result ≠ none)
    ?_ ?_ documents h hne
  · intro hne
    exact absurd rfl hne
  · intro _ _ _ compiled _ _ _ _
    exact Option.some_ne_none compiled

end BemMarkup.Template

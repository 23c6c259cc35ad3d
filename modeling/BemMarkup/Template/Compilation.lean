import BemMarkup.Template.Inheritance
import BemMarkup.Template.Registry

/-!
# Compilation

A document is compiled from its start to its end, and the first mistake ends it. What a
node means may depend on everything before it, so the declarations made so far are handed
from node to node. The tag and the attributes of an element are entered before its content
is compiled and its renderer after, so an element inside may continue the tag of one
around it, and of two elements with one name the one that is completed last counts.

A helper element is replaced when it is reached: its helper is called, and the nodes that
it gives are compiled at once in its place. If the helper element has a name, they become
a region. A helper that comes after the first mistake is never called, so a mistake is
found however many helper elements there would have been after it.

The nodes of a helper may hold helper elements in turn. Every step from a helper element
to its nodes uses up one unit of a budget, which makes compilation total whatever the
helpers are; where the budget is used up, compilation ends with `Stop.unfinished`. The
budget of `compile` is `helperReserve` more than the elements of the document nest, so
helpers that only hand on the content of their element, as `section` does, never use it
up. The budget counts steps inward and not helper elements, so any number of them may
stand beside each other.

## Main definitions

* `compileNodes`: the fragments of nodes and what they declare.
* `compile`, `compileChain`: a compiled template from the nodes of documents.

## Main statements

* `compileNodes_cons`, `compileNodes_append`: nodes are compiled one after the other.
* `compileNode_comment`: a comment leaves nothing behind.
* `compileElement_helper`, `compileElement_named`, `compileElement_unnamed`: the three kinds
  of elements.
-/

namespace BemMarkup.Template

open Document

/-- The outcome of a compilation: fragments and the declarations after them. -/
abbrev Output := Except Stop (List Fragment × Declarations)

/-- A way to compile nodes that stand inside the named element `scope`, after the
declarations `declared`. -/
abbrev Compiler := (scope : Option String) → (declared : Declarations) → List Node → Output

/-! ## Helper elements -/

/-- The helper that a helper element asks for. -/
def requireHelper (helpers : Table Helper) (element : Element) : Except Stop Helper :=
  match element.heading.tag with
  | none => .error (.faultAt .missingHelperName element.span.offset)
  | some tag =>
    match helpers.get? tag with
    | some helper => .ok helper
    | none => .error (.faultAt (.unknownHelper tag) element.span.offset)

/-- The output for a helper element, where `again` compiles the nodes that its helper
gives. -/
def compileHelper (helpers : Table Helper) (again : Compiler) (scope : Option String)
    (declared : Declarations) (element : Element) : Output := do
  let helper ← requireHelper helpers element
  let nodes := (helper element).getD []
  match element.name? with
  | none => again scope declared nodes
  | some name =>
    let (content, declared) ← again (some name) declared nodes
    return ([.element name], declared.define name (.region content))

/-! ## Nodes -/

section Nodes

variable (helpers : Table Helper) (parent : Option Compiled) (again : Compiler)

mutual

/-- The output for a node. -/
def compileNode (scope : Option String) (declared : Declarations) : Node → Output
  | .element element => compileElement scope declared element
  | .literal literal => .ok ([.text (Text.unescape literal.value)], declared)
  | .comment _ => .ok ([], declared)
  | .superCall call => do
    let content ← superContent parent scope call
    return ([.splice content], declared)

/-- The output for an element or a helper element. -/
def compileElement (scope : Option String) (declared : Declarations) : Element → Output
  | ⟨heading, content, span⟩ =>
    if heading.isHelper then compileHelper helpers again scope declared ⟨heading, content, span⟩
    else
      match heading.name? with
      | some name => do
        let (tag, attributes) ← namedHeading parent declared heading name span.offset
        let (fragments, declared) ←
          compileContent (some name) (declared.announce name tag attributes) content
        return ([.element name], declared.define name
          (.ofElement tag attributes heading.names content.isSome fragments))
      | none => do
        let (tag, attributes) ← unnamedHeading parent heading span.offset
        let (fragments, declared) ← compileContent scope declared content
        return ((Renderer.ofElement tag attributes heading.names content.isSome
          fragments).fragments, declared)

/-- The output for the content of an element, which has none without braces. -/
def compileContent (scope : Option String) (declared : Declarations) :
    Option (List Node) → Output
  | none => .ok ([], declared)
  | some nodes => compileNodes scope declared nodes

/-- The output for consecutive nodes. -/
def compileNodes (scope : Option String) (declared : Declarations) : List Node → Output
  | [] => .ok ([], declared)
  | node :: nodes => do
    let (first, declared) ← compileNode scope declared node
    let (rest, declared) ← compileNodes scope declared nodes
    return (first ++ rest, declared)

end

end Nodes

/-! ## Templates -/

/-- The output for consecutive nodes, with a budget for the steps from helper elements to
the nodes of their helpers. -/
def compileWithin (helpers : Table Helper) (parent : Option Compiled) : Nat → Compiler
  | 0 => compileNodes helpers parent fun _ _ _ => .error .unfinished
  | budget + 1 => compileNodes helpers parent (compileWithin helpers parent budget)

/-- The steps from helper elements to the nodes of their helpers that are always
possible. -/
def helperReserve : Nat := 16384

/-- The compiled form of the nodes of a document. -/
def compile (helpers : Table Helper) (parent : Option Compiled) (nodes : List Node) :
    Except Stop Compiled :=
  (compileWithin helpers parent (Node.depthOfAll nodes + helperReserve) none .empty nodes).map
    fun (root, declared) => .extend parent root declared

/-- The compiled form of a chain of documents, the topmost first. -/
def compileChain (helpers : Table Helper) (documents : List (List Node)) :
    Except Stop (Option Compiled) :=
  documents.foldlM (fun parent nodes => (compile helpers parent nodes).map some) none

/-! ## Rules of compilation -/

section Rules

variable (helpers : Table Helper) (parent : Option Compiled) (again : Compiler)
  (scope : Option String) (declared : Declarations)

@[simp] theorem compileNodes_nil :
    compileNodes helpers parent again scope declared [] = .ok ([], declared) := by
  rw [compileNodes]

/-- Nodes are compiled one after the other. -/
theorem compileNodes_cons (node : Node) (nodes : List Node) :
    compileNodes helpers parent again scope declared (node :: nodes) = do
      let (first, declared) ← compileNode helpers parent again scope declared node
      let (rest, declared) ← compileNodes helpers parent again scope declared nodes
      return (first ++ rest, declared) := by
  rw [compileNodes]

/-- The nodes of two lists are compiled as the nodes of the first and then those of the
second. -/
theorem compileNodes_append (xs ys : List Node) :
    compileNodes helpers parent again scope declared (xs ++ ys) = do
      let (first, declared) ← compileNodes helpers parent again scope declared xs
      let (rest, declared) ← compileNodes helpers parent again scope declared ys
      return (first ++ rest, declared) := by
  induction xs generalizing declared with
  | nil =>
    rw [compileNodes_nil, List.nil_append]
    exact (bind_pure _).symm
  | cons x xs ih => simp [compileNodes_cons, ih]

/-- A comment leaves nothing behind. -/
@[simp] theorem compileNode_comment (comment : Comment) :
    compileNode helpers parent again scope declared (.comment comment) = .ok ([], declared) := by
  rw [compileNode]

@[simp] theorem compileNode_literal (literal : Literal) :
    compileNode helpers parent again scope declared (.literal literal) =
      .ok ([.text (Text.unescape literal.value)], declared) := by
  rw [compileNode]

theorem compileNode_superCall (call : SuperCall) :
    compileNode helpers parent again scope declared (.superCall call) = do
      let content ← superContent parent scope call
      return ([.splice content], declared) := by
  rw [compileNode]

@[simp] theorem compileNode_element (element : Element) :
    compileNode helpers parent again scope declared (.element element) =
      compileElement helpers parent again scope declared element := by
  rw [compileNode]

@[simp] theorem compileContent_none :
    compileContent helpers parent again scope declared none = .ok ([], declared) := by
  rw [compileContent]

@[simp] theorem compileContent_some (nodes : List Node) :
    compileContent helpers parent again scope declared (some nodes) =
      compileNodes helpers parent again scope declared nodes := by
  rw [compileContent]

variable {helpers parent again scope declared} {element : Element}

/-- A helper element is replaced by what its helper gives. -/
theorem compileElement_helper (h : element.heading.isHelper = true) :
    compileElement helpers parent again scope declared element =
      compileHelper helpers again scope declared element := by
  obtain ⟨heading, content, span⟩ := element
  rw [compileElement, if_pos h]

/-- Without a name, a helper element is what its helper gives. -/
theorem compileHelper_unnamed (hname : element.heading.name? = none) :
    compileHelper helpers again scope declared element =
      requireHelper helpers element >>= fun helper =>
        again scope declared ((helper element).getD []) := by
  rw [compileHelper, show element.name? = none from hname]

/-- With a name, it leaves a call of a region behind. -/
theorem compileHelper_named {name : String} (hname : element.heading.name? = some name) :
    compileHelper helpers again scope declared element = do
      let helper ← requireHelper helpers element
      let (content, declared) ← again (some name) declared ((helper element).getD [])
      return ([.element name], declared.define name (.region content)) := by
  rw [compileHelper, show element.name? = some name from hname]

/-- A named element leaves a call behind, and its declarations. -/
theorem compileElement_named (h : element.heading.isHelper = false) {name : String}
    (hname : element.heading.name? = some name) :
    compileElement helpers parent again scope declared element = do
      let (tag, attributes) ←
        namedHeading parent declared element.heading name element.span.offset
      let (fragments, declared) ← compileContent helpers parent again (some name)
        (declared.announce name tag attributes) element.content
      return ([.element name], declared.define name
        (.ofElement tag attributes element.heading.names element.content.isSome fragments)) := by
  obtain ⟨heading, content, span⟩ := element
  have h' : ¬ heading.isHelper = true := by simpa using h
  rw [compileElement, if_neg h', hname]

/-- An element without a name leaves its own fragments behind. -/
theorem compileElement_unnamed (h : element.heading.isHelper = false)
    (hname : element.heading.name? = none) :
    compileElement helpers parent again scope declared element = do
      let (tag, attributes) ← unnamedHeading parent element.heading element.span.offset
      let (fragments, declared) ←
        compileContent helpers parent again scope declared element.content
      return ((Renderer.ofElement tag attributes element.heading.names element.content.isSome
        fragments).fragments, declared) := by
  obtain ⟨heading, content, span⟩ := element
  have h' : ¬ heading.isHelper = true := by simpa using h
  rw [compileElement, if_neg h', hname]

/-- An element without braces is compiled like one without children. -/
theorem compileContent_eq_compileNodes (element : Element) :
    compileContent helpers parent again scope declared element.content =
      compileNodes helpers parent again scope declared (Node.element element).children := by
  cases h : element.content with
  | none => rw [compileContent_none, Node.children, h, Option.getD_none, compileNodes_nil]
  | some nodes => rw [compileContent_some, Node.children, h, Option.getD_some]

end Rules

theorem requireHelper_eq_ok {helpers : Table Helper} {element : Element} {helper : Helper}
    (h : requireHelper helpers element = .ok helper) :
    ∃ tag, element.heading.tag = some tag ∧ helpers.get? tag = some helper := by
  unfold requireHelper at h
  split at h
  · cases h
  · rename_i tag htag
    split at h
    · rename_i found hget
      cases h
      exact ⟨tag, htag, hget⟩
    · cases h

end BemMarkup.Template

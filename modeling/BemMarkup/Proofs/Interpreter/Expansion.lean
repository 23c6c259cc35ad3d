import BemMarkup.Template.Helper
import BemMarkup.Template.Layers
import BemMarkup.Text.Literal

/-!
# Content without helpers

Before it can be said what a document means, its helper elements have to be replaced by
what their helpers give.  The outcome is `Expanded` content: comments are gone, texts have
their escapes resolved, and a helper element with a name has become a region.

Helpers may give helper elements in turn.  Expanding therefore takes fuel, one unit for
every step from a helper element to the nodes of its helper, and has no outcome when the
fuel does not suffice.  More fuel never changes an outcome.

## Main results

* `expandWithin_mono`: expanded content does not depend on the fuel.
-/

namespace BemMarkup.Template

open Document

/-- A piece of content in which every helper has been called. -/
inductive Expanded where
  /-- A text. -/
  | text (value : String)
  /-- A super call with its target, if it names one. -/
  | superCall (target : Option String)
  /-- An element with its children; whether it has braces matters to its closing tag. -/
  | element (heading : Heading) (hasBraces : Bool) (children : List Expanded)
  /-- A named helper element with what its helper gave. -/
  | region (name : String) (children : List Expanded)

/-- A property of content follows if it passes from the rest of the content to the whole, for
an element and a region also from its children. -/
theorem Expanded.inductAll {motive : List Expanded → Prop} (nil : motive [])
    (text : ∀ value trees, motive trees → motive (.text value :: trees))
    (superCall : ∀ target trees, motive trees → motive (.superCall target :: trees))
    (element : ∀ heading hasBraces children trees, motive children → motive trees →
      motive (.element heading hasBraces children :: trees))
    (region : ∀ name children trees, motive children → motive trees →
      motive (.region name children :: trees))
    (trees : List Expanded) : motive trees :=
  @Expanded.rec_1 (fun tree => ∀ trees, motive trees → motive (tree :: trees)) motive text
    superCall
    (fun heading hasBraces children ih trees => element heading hasBraces children trees ih)
    (fun name children ih trees => region name children trees ih) nil
    (fun _ trees hcons ih => hcons trees ih) trees

/-! ## Expanding -/

section Expanding

variable (helpers : Table Helper) (again : List Node → Option (List Expanded))

/-- What a helper element is replaced by, where `again` expands the nodes that its helper
gives. -/
def expandHelper (element : Element) : Option (List Expanded) := do
  let tag ← element.heading.tag
  let helper ← helpers.get? tag
  let children ← again ((helper element).getD [])
  match element.name? with
  | none => return children
  | some name => return [.region name children]

mutual

/-- A node without helpers. -/
def expandNode : Node → Option (List Expanded)
  | .element element => expandElement element
  | .literal literal => some [.text (Text.unescape literal.value)]
  | .comment _ => some []
  | .superCall call => some [.superCall call.target]

/-- An element without helpers. -/
def expandElement : Element → Option (List Expanded)
  | ⟨heading, content, span⟩ =>
    if heading.isHelper then expandHelper helpers again ⟨heading, content, span⟩
    else do
      let children ← expandContent content
      return [.element heading content.isSome children]

/-- The content of an element without helpers. -/
def expandContent : Option (List Node) → Option (List Expanded)
  | none => some []
  | some nodes => expandNodes nodes

/-- Consecutive nodes without helpers. -/
def expandNodes : List Node → Option (List Expanded)
  | [] => some []
  | node :: nodes => do
    let first ← expandNode node
    let rest ← expandNodes nodes
    return first ++ rest

end

end Expanding

/-- Consecutive nodes without helpers, with fuel for the calls of helpers. -/
def expandWithin (helpers : Table Helper) : Nat → List Node → Option (List Expanded)
  | 0 => expandNodes helpers fun _ => none
  | fuel + 1 => expandNodes helpers (expandWithin helpers fuel)

/-! ## Rules -/

section Rules

variable {helpers : Table Helper} {again again' : List Node → Option (List Expanded)}

@[simp] theorem expandNodes_nil : expandNodes helpers again [] = some [] := by
  rw [expandNodes]

theorem expandNodes_cons_eq_some {node : Node} {nodes : List Node} {trees : List Expanded} :
    expandNodes helpers again (node :: nodes) = some trees ↔
      ∃ first rest, expandNode helpers again node = some first ∧
        expandNodes helpers again nodes = some rest ∧ trees = first ++ rest := by
  rw [expandNodes]
  simp only [Option.bind_eq_bind, Option.bind_eq_some_iff, Option.pure_def, Option.some.injEq]
  constructor
  · rintro ⟨first, hfirst, rest, hrest, rfl⟩
    exact ⟨first, rest, hfirst, hrest, rfl⟩
  · rintro ⟨first, rest, hfirst, hrest, rfl⟩
    exact ⟨first, hfirst, rest, hrest, rfl⟩

@[simp] theorem expandNode_literal (literal : Literal) :
    expandNode helpers again (.literal literal) = some [.text (Text.unescape literal.value)] := by
  rw [expandNode]

@[simp] theorem expandNode_comment (comment : Comment) :
    expandNode helpers again (.comment comment) = some [] := by
  rw [expandNode]

@[simp] theorem expandNode_superCall (call : SuperCall) :
    expandNode helpers again (.superCall call) = some [.superCall call.target] := by
  rw [expandNode]

theorem expandNode_helper {element : Element} (h : element.heading.isHelper = true) :
    expandNode helpers again (.element element) = expandHelper helpers again element := by
  obtain ⟨heading, content, span⟩ := element
  rw [expandNode, expandElement, if_pos h]

theorem expandNode_element {element : Element} (h : element.heading.isHelper = false) :
    expandNode helpers again (.element element) =
      (expandNodes helpers again (Node.element element).children).map
        fun children => [.element element.heading element.content.isSome children] := by
  obtain ⟨heading, content, span⟩ := element
  have h' : ¬ heading.isHelper = true := by simpa using h
  rw [expandNode, expandElement, if_neg h']
  cases content with
  | none =>
      rw [expandContent, Node.children, Option.getD_none, expandNodes_nil]
      rfl
  | some nodes =>
      rw [expandContent, Node.children, Option.getD_some, Option.map_eq_bind]
      rfl

/-- A helper element is expanded alike where its nodes are. -/
theorem expandHelper_mono
    (hagain : ∀ nodes trees, again nodes = some trees → again' nodes = some trees)
    {element : Element} {trees : List Expanded}
    (h : expandHelper helpers again element = some trees) :
    expandHelper helpers again' element = some trees := by
  simp only [expandHelper, Option.bind_eq_bind, Option.bind_eq_some_iff] at h ⊢
  obtain ⟨tag, htag, helper, hhelper, children, hchildren, h⟩ := h
  exact ⟨tag, htag, helper, hhelper, children, hagain _ _ hchildren, h⟩

/-- Nodes are expanded alike where the nodes of their helpers are. -/
theorem expandNodes_mono
    (hagain : ∀ nodes trees, again nodes = some trees → again' nodes = some trees)
    {nodes : List Node} : ∀ {trees : List Expanded},
      expandNodes helpers again nodes = some trees →
        expandNodes helpers again' nodes = some trees := by
  induction nodes using Node.inductAll with
  | nil =>
      intro trees h
      simpa using h
  | element element nodes ihChildren ih =>
      intro trees h
      obtain ⟨first, rest, hfirst, hrest, rfl⟩ := expandNodes_cons_eq_some.1 h
      refine expandNodes_cons_eq_some.2 ⟨first, rest, ?_, ih hrest, rfl⟩
      by_cases hhelper : element.heading.isHelper = true
      · rw [expandNode_helper hhelper] at hfirst ⊢
        exact expandHelper_mono hagain hfirst
      · rw [Bool.not_eq_true] at hhelper
        rw [expandNode_element hhelper] at hfirst ⊢
        obtain ⟨children, hchildren, rfl⟩ := Option.map_eq_some_iff.1 hfirst
        rw [ihChildren hchildren]
        rfl
  | literal literal nodes ih =>
      intro trees h
      obtain ⟨first, rest, hfirst, hrest, rfl⟩ := expandNodes_cons_eq_some.1 h
      rw [expandNode_literal] at hfirst
      exact expandNodes_cons_eq_some.2 ⟨first, rest, by rw [expandNode_literal, hfirst],
        ih hrest, rfl⟩
  | comment comment nodes ih =>
      intro trees h
      obtain ⟨first, rest, hfirst, hrest, rfl⟩ := expandNodes_cons_eq_some.1 h
      rw [expandNode_comment] at hfirst
      exact expandNodes_cons_eq_some.2 ⟨first, rest, by rw [expandNode_comment, hfirst],
        ih hrest, rfl⟩
  | superCall call nodes ih =>
      intro trees h
      obtain ⟨first, rest, hfirst, hrest, rfl⟩ := expandNodes_cons_eq_some.1 h
      rw [expandNode_superCall] at hfirst
      exact expandNodes_cons_eq_some.2 ⟨first, rest, by rw [expandNode_superCall, hfirst],
        ih hrest, rfl⟩

end Rules

theorem expandWithin_succ {helpers : Table Helper} {fuel : Nat} :
    ∀ {nodes : List Node} {trees : List Expanded}, expandWithin helpers fuel nodes = some trees →
      expandWithin helpers (fuel + 1) nodes = some trees := by
  induction fuel with
  | zero =>
      intro nodes trees h
      exact expandNodes_mono (by simp) h
  | succ fuel ih =>
      intro nodes trees h
      exact expandNodes_mono (fun nodes trees => ih) h

/-- What nodes expand to does not depend on the fuel, once it suffices. -/
theorem expandWithin_mono {helpers : Table Helper} {fuel fuel' : Nat} (hle : fuel ≤ fuel')
    {nodes : List Node} {trees : List Expanded} (h : expandWithin helpers fuel nodes = some trees) :
    expandWithin helpers fuel' nodes = some trees := by
  induction hle with
  | refl => exact h
  | step _ ih => exact expandWithin_succ ih

end BemMarkup.Template

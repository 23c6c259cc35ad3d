import BemMarkup.Template.Compilation

/-!
# Writing out what helpers give

A helper element without a name stands for the nodes that its helper gives.  Writing these nodes
in its place, at the top level or deep inside elements and sections, does not change what a
document compiles to, and neither does leaving out a comment.  The fragments, all three tables
and the error are the same, whatever is declared before, around and after the place.

The two documents do not use up the same budget, since the step from the helper element to its
nodes is no longer made.  So results are compared up to the budget: `Approximates x y` says that
`x` is `y` unless its budget was used up.  Compiling respects this order in everything that it
consists of, and one congruence, for a budget that may be larger on one side
(`Replaced.approximates`), gives both directions.

Inside a helper element nothing may be replaced in general, because a helper may look at the
content of its element.  A section does not: it gives the content as it is.

## Main definitions

* `Replaced`: two documents that differ at one place.
* `CompilesTo`: what a document compiles to with any budget that is large enough.

## Main results

* `compileWithin_mono`: a larger budget does not change a result.
* `Replaced.approximates`: replacing nodes at a place respects the order of results.
* `compile_written_out`: what a helper gives can be written out, and comments can be left out.
-/

namespace BemMarkup.Template

open Document

/-! ## Results and budgets -/

/-- The first result is the second, or its budget was used up. -/
def Approximates {α : Type} (x y : Except Stop α) : Prop := x = .error .unfinished ∨ x = y

section Approximates

variable {α β : Type} {x y z : Except Stop α}

theorem Approximates.refl (x : Except Stop α) : Approximates x x := .inr rfl

theorem Approximates.trans (hxy : Approximates x y) (hyz : Approximates y z) :
    Approximates x z := by
  cases hxy with
  | inl h => exact .inl h
  | inr h => rwa [h]

theorem Approximates.eq_of_ne (h : Approximates x y) (hx : x ≠ .error .unfinished) : x = y :=
  h.resolve_left hx

theorem Approximates.antisymm (hxy : Approximates x y) (hyx : Approximates y x) : x = y := by
  cases hxy with
  | inl hx =>
      cases hyx with
      | inl hy => rw [hx, hy]
      | inr h => exact h.symm
  | inr h => exact h

theorem Approximates.bind {f g : α → Except Stop β} (h : Approximates x y)
    (hfg : ∀ value, Approximates (f value) (g value)) :
    Approximates (x >>= f) (y >>= g) := by
  cases h with
  | inl h =>
      rw [h]
      exact .inl rfl
  | inr h =>
      rw [h]
      cases y with
      | error stop => exact .refl _
      | ok value => exact hfg value

/-- If the first step is the same, only its value matters to the second. -/
theorem Approximates.bind_self {f g : α → Except Stop β}
    (hfg : ∀ value, x = .ok value → Approximates (f value) (g value)) :
    Approximates (x >>= f) (x >>= g) := by
  cases x with
  | error stop => exact .refl _
  | ok value => exact hfg value rfl

end Approximates

/-- Wherever the first compiler has a result for the first nodes, the second one has it for the
second nodes. -/
def Refines (compiler compiler' : Compiler) (nodes nodes' : List Node) : Prop :=
  ∀ scope declared, Approximates (compiler scope declared nodes) (compiler' scope declared nodes')

/-! ## Compiling respects the order -/

section Congruence

variable {helpers : Table Helper} {parent : Option Compiled} {again again' : Compiler}

theorem refines_cons {node node' : Node} {nodes nodes' : List Node}
    (hnode : ∀ scope declared, Approximates (compileNode helpers parent again scope declared node)
      (compileNode helpers parent again' scope declared node'))
    (hnodes : Refines (compileNodes helpers parent again) (compileNodes helpers parent again')
      nodes nodes') :
    Refines (compileNodes helpers parent again) (compileNodes helpers parent again')
      (node :: nodes) (node' :: nodes') := by
  intro scope declared
  rw [compileNodes_cons, compileNodes_cons]
  apply (hnode scope declared).bind
  rintro ⟨first, middle⟩
  apply (hnodes scope middle).bind
  rintro ⟨rest, last⟩
  exact .refl _

theorem refines_append {xs xs' ys ys' : List Node}
    (hxs : Refines (compileNodes helpers parent again) (compileNodes helpers parent again') xs xs')
    (hys : Refines (compileNodes helpers parent again) (compileNodes helpers parent again')
      ys ys') :
    Refines (compileNodes helpers parent again) (compileNodes helpers parent again')
      (xs ++ ys) (xs' ++ ys') := by
  intro scope declared
  rw [compileNodes_append, compileNodes_append]
  apply (hxs scope declared).bind
  rintro ⟨first, middle⟩
  apply (hys scope middle).bind
  rintro ⟨rest, last⟩
  exact .refl _

/-- A node alone is compiled like a list of one node. -/
theorem compileNodes_singleton (scope : Option String) (declared : Declarations) (node : Node) :
    compileNodes helpers parent again scope declared [node] =
      compileNode helpers parent again scope declared node := by
  rw [compileNodes_cons]
  simp only [compileNodes_nil]
  cases compileNode helpers parent again scope declared node with
  | error stop => rfl
  | ok output =>
      obtain ⟨fragments, after⟩ := output
      have hnone : fragments ++ [] = fragments := List.append_nil fragments
      exact congrArg (fun fragments => Except.ok (fragments, after)) hnone

variable {heading : Heading} {content content' : Option (List Node)} {span : Span}

/-- For an element it is enough to look at its children. -/
theorem approximates_element (hhelper : heading.isHelper = false)
    (hbraces : content'.isSome = content.isSome)
    (hchildren : Refines (compileNodes helpers parent again) (compileNodes helpers parent again')
      (content.getD []) (content'.getD [])) (scope : Option String) (declared : Declarations) :
    Approximates (compileElement helpers parent again scope declared ⟨heading, content, span⟩)
      (compileElement helpers parent again' scope declared ⟨heading, content', span⟩) := by
  have hcontent : ∀ scope declared, Approximates
      (compileContent helpers parent again scope declared content)
      (compileContent helpers parent again' scope declared content') := by
    intro scope declared
    have hold : compileContent helpers parent again scope declared content = _ :=
      compileContent_eq_compileNodes ⟨heading, content, span⟩
    have hnew : compileContent helpers parent again' scope declared content' = _ :=
      compileContent_eq_compileNodes ⟨heading, content', span⟩
    rw [hold, hnew]
    exact hchildren scope declared
  cases hname : heading.name? with
  | some name =>
      rw [compileElement_named hhelper hname, compileElement_named hhelper hname]
      apply (Approximates.refl _).bind
      rintro ⟨tag, attributes⟩
      apply (hcontent (some name) _).bind
      rintro ⟨fragments, after⟩
      rw [hbraces]
      exact .refl _
  | none =>
      rw [compileElement_unnamed hhelper hname, compileElement_unnamed hhelper hname]
      apply (Approximates.refl _).bind
      rintro ⟨tag, attributes⟩
      apply (hcontent scope declared).bind
      rintro ⟨fragments, after⟩
      rw [hbraces]
      exact .refl _

/-- For a helper element it is enough to look at what its helper gives. -/
theorem approximates_helper
    (hnodes : ∀ helper, requireHelper helpers ⟨heading, content, span⟩ = .ok helper →
      Refines again again' ((helper ⟨heading, content, span⟩).getD [])
        ((helper ⟨heading, content', span⟩).getD []))
    (scope : Option String) (declared : Declarations) :
    Approximates (compileHelper helpers again scope declared ⟨heading, content, span⟩)
      (compileHelper helpers again' scope declared ⟨heading, content', span⟩) := by
  have hsame : requireHelper helpers ⟨heading, content', span⟩ =
      requireHelper helpers ⟨heading, content, span⟩ := rfl
  cases hname : heading.name? with
  | none =>
      rw [compileHelper_unnamed hname, compileHelper_unnamed hname, hsame]
      apply Approximates.bind_self
      intro helper hrequire
      exact hnodes helper hrequire scope declared
  | some name =>
      rw [compileHelper_named hname, compileHelper_named hname, hsame]
      apply Approximates.bind_self
      intro helper hrequire
      apply (hnodes helper hrequire (some name) declared).bind
      rintro ⟨fragments, after⟩
      exact .refl _

/-- A compiler that has more results inside helper elements has more results everywhere. -/
theorem refines_compileNodes (hagain : ∀ nodes, Refines again again' nodes nodes)
    (nodes : List Node) :
    Refines (compileNodes helpers parent again) (compileNodes helpers parent again')
      nodes nodes := by
  induction nodes using Node.inductAll with
  | nil =>
      intro scope declared
      rw [compileNodes_nil, compileNodes_nil]
      exact .refl _
  | element element nodes ihChildren ih =>
      refine refines_cons ?_ ih
      intro scope declared
      rw [compileNode_element, compileNode_element]
      obtain ⟨heading, content, span⟩ := element
      by_cases hhelper : heading.isHelper = true
      · rw [compileElement_helper hhelper, compileElement_helper hhelper]
        exact approximates_helper (fun helper _ => hagain _) scope declared
      · rw [Bool.not_eq_true] at hhelper
        exact approximates_element hhelper rfl ihChildren scope declared
  | literal literal nodes ih =>
      refine refines_cons ?_ ih
      intro scope declared
      rw [compileNode_literal, compileNode_literal]
      exact .refl _
  | comment comment nodes ih =>
      refine refines_cons ?_ ih
      intro scope declared
      rw [compileNode_comment, compileNode_comment]
      exact .refl _
  | superCall call nodes ih =>
      refine refines_cons ?_ ih
      intro scope declared
      rw [compileNode_superCall, compileNode_superCall]
      exact .refl _

end Congruence

/-! ## Budgets -/

section Budgets

variable (helpers : Table Helper) (parent : Option Compiled)

/-- The output for what helpers give, where `budget` is what is left outside of them. -/
def compileInside : Nat → Compiler
  | 0 => fun _ _ _ => .error .unfinished
  | budget + 1 => compileWithin helpers parent budget

theorem compileWithin_eq (budget : Nat) :
    compileWithin helpers parent budget =
      compileNodes helpers parent (compileInside helpers parent budget) := by
  cases budget <;> rfl

variable {helpers parent}

theorem refines_succ (budget : Nat) (nodes : List Node) :
    Refines (compileWithin helpers parent budget) (compileWithin helpers parent (budget + 1))
      nodes nodes := by
  induction budget generalizing nodes with
  | zero =>
      apply refines_compileNodes
      intro inner scope declared
      exact .inl rfl
  | succ budget ih => exact refines_compileNodes ih nodes

/-- A larger budget does not change a result. -/
theorem compileWithin_mono {budget budget' : Nat} (h : budget ≤ budget') (nodes : List Node) :
    Refines (compileWithin helpers parent budget) (compileWithin helpers parent budget')
      nodes nodes := by
  induction h with
  | refl =>
      intro scope declared
      exact .refl _
  | step _ ih =>
      intro scope declared
      exact (ih scope declared).trans (refines_succ _ nodes scope declared)

/-- There is less left inside helper elements than outside. -/
theorem refines_compileInside (budget : Nat) (nodes : List Node) :
    Refines (compileInside helpers parent budget) (compileWithin helpers parent budget)
      nodes nodes := by
  cases budget with
  | zero =>
      intro scope declared
      exact .inl rfl
  | succ budget => exact refines_succ budget nodes

end Budgets

/-! ## Replacing nodes -/

/-- Two documents that differ at one place, where `step` relates what stands there.  The place is
at the top level, or between the braces of an element or of a section, at any depth.  A section
is a helper element whose helper gives the content as it is. -/
inductive Replaced (helpers : Table Helper) (step : List Node → List Node → Prop) :
    List Node → List Node → Prop
  /-- The place. -/
  | here {old new : List Node} : step old new → Replaced helpers step old new
  /-- There are nodes before and after it. -/
  | between (before after : List Node) {nodes nodes' : List Node} :
      Replaced helpers step nodes nodes' →
      Replaced helpers step (before ++ nodes ++ after) (before ++ nodes' ++ after)
  /-- It is inside an element, or inside a section. -/
  | inside {heading : Heading} (span : Span) {nodes nodes' : List Node} :
      (heading.isHelper = true → heading.tag.bind helpers.get? = some .content) →
      Replaced helpers step nodes nodes' →
      Replaced helpers step [.element ⟨heading, some nodes, span⟩]
        [.element ⟨heading, some nodes', span⟩]

section Replaced

variable {helpers : Table Helper} {parent : Option Compiled}
  {step : List Node → List Node → Prop} {nodes nodes' : List Node}

theorem Replaced.symm (h : Replaced helpers step nodes nodes') :
    Replaced helpers (fun old new => step new old) nodes' nodes := by
  induction h with
  | here hstep => exact .here hstep
  | between before after _ ih => exact .between before after ih
  | inside span hsection _ ih => exact .inside span hsection ih

theorem requireHelper_content {element : Element}
    (h : element.heading.tag.bind helpers.get? = some .content) :
    requireHelper helpers element = .ok .content := by
  obtain ⟨tag, htag, hget⟩ := Option.bind_eq_some_iff.1 h
  unfold requireHelper
  rw [htag]
  dsimp only
  rw [hget]

/-- If the replaced nodes have the same results with `extra` more budget, then so have the
documents. -/
theorem Replaced.approximates (extra : Nat)
    (hstep : ∀ old new, step old new → ∀ budget, Refines (compileWithin helpers parent budget)
      (compileWithin helpers parent (budget + extra)) old new)
    (h : Replaced helpers step nodes nodes') (budget : Nat) :
    Refines (compileWithin helpers parent budget) (compileWithin helpers parent (budget + extra))
      nodes nodes' := by
  induction h generalizing budget with
  | here h => exact hstep _ _ h budget
  | between before after _ ih =>
      have hmore : ∀ other, Refines (compileWithin helpers parent budget)
          (compileWithin helpers parent (budget + extra)) other other :=
        compileWithin_mono (Nat.le_add_right budget extra)
      have hbefore := hmore before
      have hafter := hmore after
      have hnodes := ih budget
      rw [compileWithin_eq, compileWithin_eq] at hbefore hafter hnodes ⊢
      exact refines_append (refines_append hbefore hnodes) hafter
  | @inside heading span nodes nodes' hsection _ ih =>
      intro scope declared
      by_cases hhelper : heading.isHelper = true
      · rw [compileWithin_eq, compileWithin_eq, compileNodes_singleton, compileNodes_singleton,
          compileNode_element, compileNode_element, compileElement_helper hhelper,
          compileElement_helper hhelper]
        apply approximates_helper
        intro helper hrequire
        rw [requireHelper_content (hsection hhelper)] at hrequire
        cases hrequire
        -- Only here is a unit of the budget used up, on both sides.
        cases budget with
        | zero =>
            intro scope declared
            exact .inl rfl
        | succ budget =>
            rw [Nat.add_right_comm]
            exact ih budget
      · rw [Bool.not_eq_true] at hhelper
        have hnodes := ih budget
        rw [compileWithin_eq, compileWithin_eq] at hnodes ⊢
        rw [compileNodes_singleton, compileNodes_singleton, compileNode_element,
          compileNode_element]
        have hbraces : (some nodes').isSome = (some nodes).isSome := rfl
        exact approximates_element hhelper hbraces hnodes scope declared

theorem depthOfAll_append (xs ys : List Node) :
    Node.depthOfAll (xs ++ ys) = max (Node.depthOfAll xs) (Node.depthOfAll ys) := by
  induction xs with
  | nil => rw [List.nil_append, Node.depthOfAll, Nat.zero_max]
  | cons x xs ih => rw [List.cons_append, Node.depthOfAll, Node.depthOfAll, ih, Nat.max_assoc]

/-- Documents nest as deep as each other if the replaced nodes do. -/
theorem Replaced.depthOfAll_eq
    (hstep : ∀ old new, step old new → Node.depthOfAll old = Node.depthOfAll new)
    (h : Replaced helpers step nodes nodes') :
    Node.depthOfAll nodes = Node.depthOfAll nodes' := by
  induction h with
  | here h => exact hstep _ _ h
  | between before after _ ih => simp only [depthOfAll_append, ih]
  | inside span _ _ ih => simp only [Node.depthOfAll, Node.depth, ih]

end Replaced

/-! ## What helpers give -/

/-- A helper element without a name, and what its helper gives for it. -/
inductive WrittenOut (helpers : Table Helper) : List Node → List Node → Prop
  /-- The nodes are written in the place of the helper element. -/
  | nodes {element : Element} {helper : Helper} : element.heading.isHelper = true →
      element.name? = none → requireHelper helpers element = .ok helper →
      WrittenOut helpers [.element element] ((helper element).getD [])

/-- A comment, and nothing in its place. -/
inductive LeftOut : List Node → List Node → Prop
  /-- The comment is left out. -/
  | comment (comment : Comment) : LeftOut [.comment comment] []

/-- What a document compiles to with any budget that is large enough: fragments and
declarations, or an error. -/
def CompilesTo (helpers : Table Helper) (parent : Option Compiled) (nodes : List Node)
    (output : Output) : Prop :=
  output ≠ .error .unfinished ∧
    ∃ budget, compileWithin helpers parent budget none .empty nodes = output

section Steps

variable {helpers : Table Helper} {parent : Option Compiled} {old new nodes nodes' : List Node}

/-- A helper element is compiled like its nodes, with what is left inside of it. -/
theorem WrittenOut.compileWithin_eq (h : WrittenOut helpers old new) (budget : Nat)
    (scope : Option String) (declared : Declarations) :
    compileWithin helpers parent budget scope declared old =
      compileInside helpers parent budget scope declared new := by
  cases h with
  | @nodes element helper hhelper hname hrequire =>
      rw [Template.compileWithin_eq, compileNodes_singleton, compileNode_element,
        compileElement_helper hhelper, compileHelper_unnamed hname, hrequire]
      rfl

theorem WrittenOut.refines (h : WrittenOut helpers old new) (budget : Nat) :
    Refines (compileWithin helpers parent budget) (compileWithin helpers parent budget)
      old new := by
  intro scope declared
  rw [h.compileWithin_eq]
  exact refines_compileInside budget new scope declared

theorem WrittenOut.refines_flip (h : WrittenOut helpers old new) (budget : Nat) :
    Refines (compileWithin helpers parent budget) (compileWithin helpers parent (budget + 1))
      new old := by
  intro scope declared
  rw [h.compileWithin_eq]
  exact .refl _

theorem LeftOut.compileWithin_eq (h : LeftOut old new) (budget : Nat) (scope : Option String)
    (declared : Declarations) :
    compileWithin helpers parent budget scope declared old =
      compileWithin helpers parent budget scope declared new := by
  cases h with
  | comment comment =>
      rw [Template.compileWithin_eq, compileNodes_singleton, compileNode_comment,
        compileNodes_nil]

/-- Leaving out a comment changes nothing, and takes the same budget. -/
theorem compileWithin_leftOut (h : Replaced helpers LeftOut nodes nodes') (budget : Nat)
    (scope : Option String) (declared : Declarations) :
    compileWithin helpers parent budget scope declared nodes =
      compileWithin helpers parent budget scope declared nodes' := by
  apply Approximates.antisymm
  · apply h.approximates 0
    intro old new hstep budget scope declared
    rw [hstep.compileWithin_eq]
    exact .refl _
  · apply h.symm.approximates 0
    intro new old hstep budget scope declared
    rw [hstep.compileWithin_eq]
    exact .refl _

/-- Writing out what a helper gives takes no more budget, and at most one unit less. -/
theorem compileWithin_writtenOut (h : Replaced helpers (WrittenOut helpers) nodes nodes')
    (budget : Nat) :
    Refines (compileWithin helpers parent budget) (compileWithin helpers parent budget)
        nodes nodes' ∧
      Refines (compileWithin helpers parent budget) (compileWithin helpers parent (budget + 1))
        nodes' nodes := by
  constructor
  · exact h.approximates 0 (fun old new hstep => hstep.refines) budget
  · exact h.symm.approximates 1 (fun new old hstep => hstep.refines_flip) budget

/-- A document compiles to one thing only. -/
theorem CompilesTo.eq_of_compilesTo {output output' : Output}
    (h : CompilesTo helpers parent nodes output)
    (h' : CompilesTo helpers parent nodes output') : output = output' := by
  obtain ⟨hfinished, budget, rfl⟩ := h
  obtain ⟨hfinished', budget', rfl⟩ := h'
  obtain hle | hle := Nat.le_total budget budget'
  · exact (compileWithin_mono hle nodes none .empty).eq_of_ne hfinished
  · exact ((compileWithin_mono hle nodes none .empty).eq_of_ne hfinished').symm

/-- What one document compiles to the other one does too, if it has the results of the first
with some more budget. -/
theorem CompilesTo.of_refines (extra : Nat) {output : Output}
    (hnodes : ∀ budget, Refines (compileWithin helpers parent budget)
      (compileWithin helpers parent (budget + extra)) nodes nodes')
    (h : CompilesTo helpers parent nodes output) : CompilesTo helpers parent nodes' output := by
  obtain ⟨hfinished, budget, rfl⟩ := h
  have heq := (hnodes budget none .empty).eq_of_ne hfinished
  exact ⟨hfinished, budget + extra, heq.symm⟩

/-- The compiled form of a document is made from what it compiles to. -/
theorem exists_compilesTo (h : compile helpers parent nodes ≠ .error .unfinished) :
    ∃ output, CompilesTo helpers parent nodes output ∧ compile helpers parent nodes =
      output.map fun (root, declared) => .extend parent root declared := by
  refine ⟨_, ⟨?_, _, rfl⟩, rfl⟩
  intro hunfinished
  apply h
  rw [compile, hunfinished]
  rfl

/-- What a document compiles to with the reserve alone is what it is compiled to. -/
theorem compile_of_reserve
    (h : compileWithin helpers parent helperReserve none .empty nodes ≠ .error .unfinished) :
    compile helpers parent nodes =
      (compileWithin helpers parent helperReserve none .empty nodes).map
        fun (root, declared) => .extend parent root declared := by
  have hmore : Approximates (compileWithin helpers parent helperReserve none .empty nodes)
      (compileWithin helpers parent (Node.depthOfAll nodes + helperReserve) none .empty nodes) :=
    compileWithin_mono (Nat.le_add_left helperReserve (Node.depthOfAll nodes)) nodes none .empty
  rw [hmore.eq_of_ne h]
  rfl

end Steps

/-- A comment can be left out of a document, and what a helper gives for an element without a
name can be written in its place.  The compiled form is the same, or the error.  The only
difference is that the nodes of a helper need some of the budget: what a document compiles to
with enough of it is the same, and so is what it is compiled to, unless one of the two has used
up the budget, which it has not if the reserve alone is enough. -/
theorem compile_written_out (helpers : Table Helper) (parent : Option Compiled)
    (nodes nodes' : List Node) :
    (Replaced helpers LeftOut nodes nodes' →
      compile helpers parent nodes = compile helpers parent nodes') ∧
    (Replaced helpers (WrittenOut helpers) nodes nodes' →
      (∀ output, CompilesTo helpers parent nodes output ↔ CompilesTo helpers parent nodes' output) ∧
      (compile helpers parent nodes ≠ .error .unfinished →
        compile helpers parent nodes' ≠ .error .unfinished →
          compile helpers parent nodes = compile helpers parent nodes') ∧
      (compileWithin helpers parent helperReserve none .empty nodes ≠ .error .unfinished →
        compile helpers parent nodes = compile helpers parent nodes')) := by
  constructor
  · intro h
    have hdepth : Node.depthOfAll nodes = Node.depthOfAll nodes' := by
      apply h.depthOfAll_eq
      rintro _ _ ⟨comment⟩
      rfl
    rw [compile, compile, hdepth, compileWithin_leftOut h]
  · intro h
    have hboth : ∀ output,
        CompilesTo helpers parent nodes output ↔ CompilesTo helpers parent nodes' output := by
      intro output
      constructor
      · apply CompilesTo.of_refines 0
        intro budget
        exact (compileWithin_writtenOut h budget).1
      · apply CompilesTo.of_refines 1
        intro budget
        exact (compileWithin_writtenOut h budget).2
    refine ⟨hboth, ?_, ?_⟩
    · intro hfinished hfinished'
      obtain ⟨output, hnodes, heq⟩ := exists_compilesTo hfinished
      obtain ⟨output', hnodes', heq'⟩ := exists_compilesTo hfinished'
      rw [heq, heq', ((hboth output).1 hnodes).eq_of_compilesTo hnodes']
    · intro hreserve
      have heq := ((compileWithin_writtenOut h helperReserve).1 none .empty).eq_of_ne hreserve
      rw [compile_of_reserve hreserve, heq]
      rw [heq] at hreserve
      exact (compile_of_reserve hreserve).symm

/-- A section without a name and without a place in a source. -/
def plainSection (nodes : List Node) : Node :=
  .element ⟨⟨true, some "section", none, none⟩, some nodes, ⟨0, ""⟩⟩

/-- The content of `h1/title`. -/
def title : List Node :=
  [.element ⟨⟨false, some "h1", some [some "title"], none⟩, none, ⟨0, ""⟩⟩]

/-- An element with a section, in which a text stands behind the given nodes. -/
def page (nodes : List Node) : List Node :=
  [.element ⟨⟨false, some "div", some [some "page"], none⟩,
    some [plainSection (nodes ++ [.literal ⟨"end", false, ⟨0, ""⟩⟩])], ⟨0, ""⟩⟩]

/-- Inside the section of the page, the nodes of another section can be written out, and a comment
can be left out. -/
theorem page_written_out :
    compile Registry.initial.helpers none (page [plainSection title]) =
        compile Registry.initial.helpers none (page title) ∧
      compile Registry.initial.helpers none (page [.comment ⟨"note", false, ⟨0, ""⟩⟩]) =
        compile Registry.initial.helpers none (page []) ∧
      (compile Registry.initial.helpers none (page title)).toOption.isSome = true := by
  have hpage : ∀ {step : List Node → List Node → Prop} {old new : List Node}, step old new →
      Replaced Registry.initial.helpers step (page old) (page new) := by
    intro step old new hstep
    apply Replaced.inside
    · intro hhelper
      cases hhelper
    · apply Replaced.inside
      · intro _
        rfl
      · exact .between [] [_] (.here hstep)
  have hrequire : requireHelper Registry.initial.helpers
      ⟨⟨true, some "section", none, none⟩, some title, ⟨0, ""⟩⟩ = .ok .content := rfl
  have hsection : WrittenOut Registry.initial.helpers [plainSection title] title :=
    .nodes rfl rfl hrequire
  refine ⟨?_, ?_, rfl⟩
  · apply ((compile_written_out _ none _ _).2 (hpage hsection)).2.2
    intro hunfinished
    cases hunfinished
  · exact (compile_written_out _ none _ _).1 (hpage (.comment _))

end BemMarkup.Template

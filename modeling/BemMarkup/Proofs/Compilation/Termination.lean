import Mathlib.Data.Set.Finite.Lattice
import Mathlib.Order.WellFounded
import BemMarkup.Proofs.Compilation.Checks
import BemMarkup.Proofs.Compilation.Inlining

/-!
# When compiling ends

What a helper gives is compiled at once, and it may hold helper elements in turn.  Nothing keeps
a helper from giving an element that it is called for again, so compiling need not come to an
end.  Whether it does can be told from the helpers alone.  `Gives` leads from nodes to what is
compiled in the place of one of their helper elements, and compiling goes on forever only along
an endless chain of such steps.

The budget of a compilation bounds these chains.  Every step of a chain uses up one unit, and
nothing else does.  So a budget is enough, whatever the parent is, if no chain is longer, and
what has been compiled within a budget has no longer chain.  Nodes hold only finitely many helper
elements.  Therefore, if every chain has an end, their lengths have a bound, and a large budget
is enough.

The converse has an exception.  Compiling stops at the first mistake, and the helper elements
after it are not replaced any more.  So a document with an endless chain may end with an error,
but it never ends with a template.

## Main definitions

* `helperElements`: the helper elements that are replaced when nodes are compiled.
* `Gives`: what is compiled in the place of one of them.
* `Endless`, `ChainsWithin`: helpers keep giving helper elements, or only so many times.

## Main results

* `not_endless_iff`: without an endless chain there is a bound for all chains.
* `chainsWithin_of_lt`: a bound for chains along which helper elements become smaller.
* `endsOn_compileWithin`: a budget is enough if no chain is longer.
* `chainsWithin_of_compileWithin`: what is compiled within a budget has no longer chain.
* `compile_ends`: compiling ends if there is no endless chain, or if a mistake stops it.
* `compileWithin_call`: no budget is enough for a helper that gives a call of itself.
-/

namespace BemMarkup.Template

open Document

/-! ## Chains of helper elements -/

mutual

/-- The helper elements in a node.  What stands inside a helper element is not compiled unless
its helper gives it. -/
def helperElementsOf : Node → List Element
  | .element ⟨heading, content, span⟩ =>
    if heading.isHelper then [⟨heading, content, span⟩]
    else
      match content with
      | none => []
      | some nodes => helperElements nodes
  | .literal _ | .comment _ | .superCall _ => []

/-- The helper elements in the nodes of a list that are replaced when the list is compiled. -/
def helperElements : List Node → List Element
  | [] => []
  | node :: nodes => helperElementsOf node ++ helperElements nodes

end

theorem helperElementsOf_helper {element : Element} (h : element.heading.isHelper = true) :
    helperElementsOf (.element element) = [element] := by
  obtain ⟨heading, content, span⟩ := element
  cases content <;> rw [helperElementsOf, if_pos h]

theorem helperElementsOf_element {element : Element} (h : element.heading.isHelper = false) :
    helperElementsOf (.element element) = helperElements (Node.element element).children := by
  obtain ⟨heading, content, span⟩ := element
  have h' : ¬ heading.isHelper = true := by simpa using h
  cases content with
  | none => rw [helperElementsOf, if_neg h', Node.children, Option.getD_none, helperElements]
  | some nodes => rw [helperElementsOf, if_neg h', Node.children, Option.getD_some]

section Chains

variable (helpers : Table Helper)

/-- In the place of one of the helper elements in `nodes`, the nodes `inner` are compiled. -/
def Gives (nodes inner : List Node) : Prop :=
  ∃ element ∈ helperElements nodes, ∃ helper, requireHelper helpers element = .ok helper ∧
    (helper element).getD [] = inner

/-- Helpers keep giving helper elements, along a chain that starts at the nodes and has no end. -/
def Endless (nodes : List Node) : Prop :=
  ∃ chain : Nat → List Node, chain 0 = nodes ∧ ∀ i, Gives helpers (chain i) (chain (i + 1))

/-- No chain that starts at the nodes has more steps than `bound`. -/
def ChainsWithin (bound : Nat) (nodes : List Node) : Prop :=
  ∀ chain, List.IsChain (Gives helpers) (nodes :: chain) → chain.length ≤ bound

variable {helpers} {nodes inner : List Node} {bound : Nat}

theorem not_gives_nil : ¬ Gives helpers [] inner := by
  rintro ⟨element, hmem, -⟩
  rw [helperElements] at hmem
  cases hmem

theorem gives_cons_iff {node : Node} :
    Gives helpers (node :: nodes) inner ↔
      Gives helpers [node] inner ∨ Gives helpers nodes inner := by
  simp only [Gives, helperElements, List.append_nil, List.mem_append, or_and_right, exists_or]

theorem Gives.of_head {node : Node} (h : Gives helpers [node] inner) :
    Gives helpers (node :: nodes) inner := gives_cons_iff.2 (.inl h)

theorem Gives.of_tail {node : Node} (h : Gives helpers nodes inner) :
    Gives helpers (node :: nodes) inner := gives_cons_iff.2 (.inr h)

/-- Other nodes than elements hold no helper elements. -/
theorem not_gives_of_flat {node : Node} (hflat : ∀ element, node ≠ .element element) :
    ¬ Gives helpers [node] inner := by
  rintro ⟨inside, hmem, -⟩
  rw [helperElements, helperElements, List.append_nil] at hmem
  cases node with
  | element element => exact hflat element rfl
  | literal literal =>
      rw [helperElementsOf] at hmem
      cases hmem
  | comment comment =>
      rw [helperElementsOf] at hmem
      cases hmem
  | superCall call =>
      rw [helperElementsOf] at hmem
      cases hmem

/-- A helper element is replaced by what its helper gives. -/
theorem gives_helper_iff {element : Element} (h : element.heading.isHelper = true) :
    Gives helpers [.element element] inner ↔
      ∃ helper, requireHelper helpers element = .ok helper ∧ (helper element).getD [] = inner := by
  simp only [Gives, helperElements, List.append_nil, helperElementsOf_helper h,
    List.mem_singleton, exists_eq_left]

/-- In any other element the helper elements between its braces are replaced. -/
theorem gives_element_iff {element : Element} (h : element.heading.isHelper = false) :
    Gives helpers [.element element] inner ↔
      Gives helpers (Node.element element).children inner := by
  simp only [Gives, helperElements, List.append_nil, helperElementsOf_element h]

/-! ## Bounds for chains -/

theorem chainsWithin_zero_iff :
    ChainsWithin helpers 0 nodes ↔ ∀ inner, ¬ Gives helpers nodes inner := by
  constructor
  · intro h inner hgives
    have hlength := h [inner] (List.isChain_pair.2 hgives)
    exact absurd hlength (by simp)
  · intro h chain hchain
    cases chain with
    | nil => exact le_rfl
    | cons inner chain => exact absurd (List.isChain_cons_cons.1 hchain).1 (h inner)

theorem chainsWithin_succ_iff :
    ChainsWithin helpers (bound + 1) nodes ↔
      ∀ inner, Gives helpers nodes inner → ChainsWithin helpers bound inner := by
  constructor
  · intro h inner hgives chain hchain
    have hlength := h (inner :: chain) (List.isChain_cons_cons.2 ⟨hgives, hchain⟩)
    exact Nat.le_of_succ_le_succ hlength
  · intro h chain hchain
    cases chain with
    | nil => exact Nat.zero_le _
    | cons inner chain =>
        obtain ⟨hgives, hrest⟩ := List.isChain_cons_cons.1 hchain
        exact Nat.succ_le_succ (h inner hgives chain hrest)

/-- Nodes have finitely many helper elements, so there are finitely many first steps. -/
theorem finite_gives (helpers : Table Helper) (nodes : List Node) :
    {inner | Gives helpers nodes inner}.Finite := by
  let given : Element → List Node := fun element =>
    (match requireHelper helpers element with
      | .ok helper => helper element
      | .error _ => none).getD []
  apply ((helperElements nodes).finite_toSet.image given).subset
  rintro inner ⟨element, hmem, helper, hrequire, hinner⟩
  refine ⟨element, hmem, ?_⟩
  simp only [given, hrequire]
  exact hinner

/-- Where every chain ends, there is a bound for the lengths of all of them. -/
theorem acc_iff_chainsWithin :
    Acc (fun inner nodes => Gives helpers nodes inner) nodes ↔
      ∃ bound, ChainsWithin helpers bound nodes := by
  constructor
  · intro h
    induction h with
    | intro nodes _ ih =>
        choose! bound hbound using ih
        obtain ⟨largest, hlargest⟩ := ((finite_gives helpers nodes).image bound).bddAbove
        refine ⟨largest + 1, chainsWithin_succ_iff.2 ?_⟩
        intro inner hgives chain hchain
        have hle : bound inner ≤ largest := hlargest ⟨inner, hgives, rfl⟩
        exact (hbound inner hgives chain hchain).trans hle
  · rintro ⟨bound, h⟩
    induction bound generalizing nodes with
    | zero => exact .intro _ fun inner hgives => absurd hgives (chainsWithin_zero_iff.1 h inner)
    | succ bound ih => exact .intro _ fun inner hgives => ih (chainsWithin_succ_iff.1 h inner hgives)

/-- Without an endless chain, the lengths of the chains are bounded. -/
theorem not_endless_iff : ¬ Endless helpers nodes ↔ ∃ bound, ChainsWithin helpers bound nodes := by
  rw [← acc_iff_chainsWithin, ← not_iff_not, not_not, not_acc_iff_exists_descending_chain]
  rfl

/-- Chains are bounded if a helper element gives smaller ones only, whatever the size measures. -/
theorem chainsWithin_of_lt (size : Element → Nat)
    (hsmaller : ∀ element helper, requireHelper helpers element = .ok helper →
      ∀ inside ∈ helperElements ((helper element).getD []), size inside < size element)
    (h : ∀ element ∈ helperElements nodes, size element < bound) :
    ChainsWithin helpers bound nodes := by
  induction bound generalizing nodes with
  | zero =>
      apply chainsWithin_zero_iff.2
      rintro inner ⟨element, hmem, -⟩
      exact absurd (h element hmem) (Nat.not_lt_zero _)
  | succ bound ih =>
      apply chainsWithin_succ_iff.2
      rintro _ ⟨element, hmem, helper, hrequire, rfl⟩
      apply ih
      intro inside hinside
      have hlt := hsmaller element helper hrequire inside hinside
      exact hlt.trans_le (Nat.le_of_lt_succ (h element hmem))

end Chains

/-! ## Compiling that ends -/

/-- A step ends, with a value or with an error of the document. -/
def Finishes {α : Type} (x : Except Stop α) : Prop := x ≠ .error .unfinished

/-- A compiler ends on nodes, wherever they stand. -/
def Compiler.EndsOn (compiler : Compiler) (nodes : List Node) : Prop :=
  ∀ scope declared, Finishes (compiler scope declared nodes)

section Finishing

variable {α β : Type} {helpers : Table Helper} {parent : Option Compiled} {again : Compiler}
  {nodes : List Node}

theorem Finishes.ok (value : α) : Finishes (Except.ok value) := by
  simp [Finishes]

theorem Finishes.faultAt (kind : CompileErrorKind) (offset : Nat) :
    Finishes (Except.error (.faultAt kind offset) : Except Stop α) := by
  simp [Finishes, Stop.faultAt]

theorem Finishes.bind {x : Except Stop α} {f : α → Except Stop β} (h : Finishes x)
    (hf : ∀ value, x = .ok value → Finishes (f value)) : Finishes (x >>= f) := by
  intro hstop
  obtain hx | ⟨value, hx, hvalue⟩ := bind_eq_error_iff.1 hstop
  · exact h hx
  · exact hf value hx hvalue

theorem finishes_requireHelper (element : Element) : Finishes (requireHelper helpers element) := by
  unfold requireHelper
  split
  · exact .faultAt _ _
  · split
    · exact .ok _
    · exact .faultAt _ _

theorem finishes_tagOf (declared : Declarations) (heading : Heading) (name : String)
    (offset : Nat) : Finishes (tagOf parent declared heading name offset) := by
  unfold tagOf
  split
  · exact .ok _
  · exact .faultAt _ _

theorem finishes_namedHeading (declared : Declarations) (heading : Heading) (name : String)
    (offset : Nat) : Finishes (namedHeading parent declared heading name offset) := by
  apply (finishes_tagOf declared heading name offset).bind
  intro tag _
  have hattributes : Finishes (inheritedAttributes parent heading name) :=
    (reports_inheritedAttributes heading name).ne_unfinished
  exact hattributes.bind fun inherited _ => .ok _

theorem endsOn_cons {node : Node}
    (hnode : Compiler.EndsOn (compileNodes helpers parent again) [node])
    (hnodes : Compiler.EndsOn (compileNodes helpers parent again) nodes) :
    Compiler.EndsOn (compileNodes helpers parent again) (node :: nodes) := by
  intro scope declared
  have hfirst := hnode scope declared
  rw [compileNodes_singleton] at hfirst
  rw [compileNodes_cons]
  apply hfirst.bind
  rintro ⟨first, middle⟩ _
  exact (hnodes scope middle).bind fun _ _ => .ok _

/-- Compiling a helper element ends if compiling what its helper gives does. -/
theorem endsOn_helper {element : Element} (hhelper : element.heading.isHelper = true)
    (hagain : ∀ inner, Gives helpers [.element element] inner → again.EndsOn inner) :
    Compiler.EndsOn (compileNodes helpers parent again) [.element element] := by
  intro scope declared
  rw [compileNodes_singleton, compileNode_element, compileElement_helper hhelper]
  apply (finishes_requireHelper element).bind
  intro helper hrequire
  have hinside := hagain _ ((gives_helper_iff hhelper).2 ⟨helper, hrequire, rfl⟩)
  cases element.name? with
  | none => exact hinside scope declared
  | some name => exact (hinside (some name) declared).bind fun _ _ => .ok _

/-- Compiling any other element ends if compiling its children does. -/
theorem endsOn_element {element : Element} (hhelper : element.heading.isHelper = false)
    (hchildren : Compiler.EndsOn (compileNodes helpers parent again)
      (Node.element element).children) :
    Compiler.EndsOn (compileNodes helpers parent again) [.element element] := by
  intro scope declared
  rw [compileNodes_singleton, compileNode_element]
  cases hname : element.heading.name? with
  | none =>
      rw [compileElement_unnamed hhelper hname, compileContent_eq_compileNodes]
      have hheading : Finishes (unnamedHeading parent element.heading element.span.offset) :=
        (reports_unnamedHeading element.heading element.span.offset).ne_unfinished
      apply hheading.bind
      rintro ⟨tag, attributes⟩ _
      exact (hchildren scope declared).bind fun _ _ => .ok _
  | some name =>
      rw [compileElement_named hhelper hname]
      apply (finishes_namedHeading declared element.heading name element.span.offset).bind
      rintro ⟨tag, attributes⟩ _
      dsimp only
      rw [compileContent_eq_compileNodes]
      exact (hchildren (some name) _).bind fun _ _ => .ok _

theorem endsOn_flat {node : Node} (hflat : ∀ element, node ≠ .element element) :
    Compiler.EndsOn (compileNodes helpers parent again) [node] := by
  intro scope declared
  rw [compileNodes_singleton]
  cases node with
  | element element => exact absurd rfl (hflat element)
  | literal literal =>
      rw [compileNode_literal]
      exact .ok _
  | comment comment =>
      rw [compileNode_comment]
      exact .ok _
  | superCall call =>
      rw [compileNode_superCall]
      have hcontent : Finishes (superContent parent scope call) :=
        (reports_superContent scope call).ne_unfinished
      exact hcontent.bind fun _ _ => .ok _

/-- Compiling nodes ends if it ends on what stands in the place of their helper elements. -/
theorem endsOn_compileNodes
    (hagain : ∀ inner, Gives helpers nodes inner → again.EndsOn inner) :
    Compiler.EndsOn (compileNodes helpers parent again) nodes := by
  induction nodes using Node.inductAll with
  | nil =>
      intro scope declared
      rw [compileNodes_nil]
      exact .ok _
  | element element nodes ihChildren ih =>
      refine endsOn_cons ?_ (ih fun inner hgives => hagain inner hgives.of_tail)
      cases hhelper : element.heading.isHelper with
      | true => exact endsOn_helper hhelper fun inner hgives => hagain inner hgives.of_head
      | false =>
          apply endsOn_element hhelper
          apply ihChildren
          intro inner hgives
          exact hagain inner ((gives_element_iff hhelper).2 hgives).of_head
  | literal literal nodes ih =>
      refine endsOn_cons (endsOn_flat ?_) (ih fun inner hgives => hagain inner hgives.of_tail)
      simp
  | comment comment nodes ih =>
      refine endsOn_cons (endsOn_flat ?_) (ih fun inner hgives => hagain inner hgives.of_tail)
      simp
  | superCall call nodes ih =>
      refine endsOn_cons (endsOn_flat ?_) (ih fun inner hgives => hagain inner hgives.of_tail)
      simp

/-- A budget is enough if no chain is longer. -/
theorem endsOn_compileWithin {budget : Nat} (h : ChainsWithin helpers budget nodes) :
    Compiler.EndsOn (compileWithin helpers parent budget) nodes := by
  induction budget generalizing nodes with
  | zero =>
      apply endsOn_compileNodes
      intro inner hgives
      exact absurd hgives (chainsWithin_zero_iff.1 h inner)
  | succ budget ih =>
      apply endsOn_compileNodes
      intro inner hgives
      exact ih (chainsWithin_succ_iff.1 h inner hgives)

end Finishing

/-! ## What has been compiled -/

/-- A compiler has a value for nodes, at some place. -/
def Compiler.SucceedsOn (compiler : Compiler) (nodes : List Node) : Prop :=
  ∃ scope declared output, compiler scope declared nodes = .ok output

section Success

variable {helpers : Table Helper} {parent : Option Compiled} {again : Compiler}
  {nodes inner : List Node}

theorem Compiler.SucceedsOn.of_cons {node : Node}
    (h : Compiler.SucceedsOn (compileNodes helpers parent again) (node :: nodes)) :
    Compiler.SucceedsOn (compileNodes helpers parent again) [node] ∧
      Compiler.SucceedsOn (compileNodes helpers parent again) nodes := by
  obtain ⟨scope, declared, output, h⟩ := h
  rw [compileNodes_cons] at h
  obtain ⟨first, hfirst, h⟩ := bind_eq_ok_iff.1 h
  obtain ⟨rest, hrest, -⟩ := bind_eq_ok_iff.1 h
  rw [← compileNodes_singleton] at hfirst
  exact ⟨⟨scope, declared, first, hfirst⟩, ⟨scope, first.2, rest, hrest⟩⟩

/-- Where a helper element has been compiled, so has been what its helper gives. -/
theorem Compiler.SucceedsOn.of_helper {element : Element}
    (hhelper : element.heading.isHelper = true)
    (h : Compiler.SucceedsOn (compileNodes helpers parent again) [.element element])
    (hgives : Gives helpers [.element element] inner) : again.SucceedsOn inner := by
  obtain ⟨helper, hrequire, rfl⟩ := (gives_helper_iff hhelper).1 hgives
  obtain ⟨scope, declared, output, h⟩ := h
  rw [compileNodes_singleton, compileNode_element, compileElement_helper hhelper] at h
  cases hname : element.heading.name? with
  | none =>
      rw [compileHelper_unnamed hname, hrequire] at h
      exact ⟨scope, declared, output, h⟩
  | some name =>
      rw [compileHelper_named hname, hrequire] at h
      obtain ⟨_, hsame, h⟩ := bind_eq_ok_iff.1 h
      cases hsame
      obtain ⟨inside, hinside, -⟩ := bind_eq_ok_iff.1 h
      exact ⟨some name, declared, inside, hinside⟩

/-- Where any other element has been compiled, so have been its children. -/
theorem Compiler.SucceedsOn.of_element {element : Element}
    (hhelper : element.heading.isHelper = false)
    (h : Compiler.SucceedsOn (compileNodes helpers parent again) [.element element]) :
    Compiler.SucceedsOn (compileNodes helpers parent again) (Node.element element).children := by
  obtain ⟨scope, declared, output, h⟩ := h
  rw [compileNodes_singleton, compileNode_element] at h
  cases hname : element.heading.name? with
  | none =>
      rw [compileElement_unnamed hhelper hname, compileContent_eq_compileNodes] at h
      obtain ⟨heading, -, h⟩ := bind_eq_ok_iff.1 h
      obtain ⟨inside, hinside, -⟩ := bind_eq_ok_iff.1 h
      exact ⟨scope, declared, inside, hinside⟩
  | some name =>
      rw [compileElement_named hhelper hname] at h
      obtain ⟨heading, -, h⟩ := bind_eq_ok_iff.1 h
      obtain ⟨inside, hinside, -⟩ := bind_eq_ok_iff.1 h
      rw [compileContent_eq_compileNodes] at hinside
      exact ⟨some name, _, inside, hinside⟩

/-- Where nodes have been compiled, so has been what stands in the place of their helper
elements. -/
theorem Compiler.SucceedsOn.of_gives
    (h : Compiler.SucceedsOn (compileNodes helpers parent again) nodes)
    (hgives : Gives helpers nodes inner) : again.SucceedsOn inner := by
  induction nodes using Node.inductAll with
  | nil => exact absurd hgives not_gives_nil
  | element element nodes ihChildren ih =>
      cases gives_cons_iff.1 hgives with
      | inr htail => exact ih h.of_cons.2 htail
      | inl hhead =>
          cases hhelper : element.heading.isHelper with
          | true => exact h.of_cons.1.of_helper hhelper hhead
          | false =>
              have hchildren := h.of_cons.1.of_element hhelper
              exact ihChildren hchildren ((gives_element_iff hhelper).1 hhead)
  | literal literal nodes ih =>
      have hflat : ¬ Gives helpers [.literal literal] inner := not_gives_of_flat (by simp)
      exact ih h.of_cons.2 ((gives_cons_iff.1 hgives).resolve_left hflat)
  | comment comment nodes ih =>
      have hflat : ¬ Gives helpers [.comment comment] inner := not_gives_of_flat (by simp)
      exact ih h.of_cons.2 ((gives_cons_iff.1 hgives).resolve_left hflat)
  | superCall call nodes ih =>
      have hflat : ¬ Gives helpers [.superCall call] inner := not_gives_of_flat (by simp)
      exact ih h.of_cons.2 ((gives_cons_iff.1 hgives).resolve_left hflat)

/-- What is compiled within a budget has no longer chain. -/
theorem chainsWithin_of_compileWithin {budget : Nat}
    (h : Compiler.SucceedsOn (compileWithin helpers parent budget) nodes) :
    ChainsWithin helpers budget nodes := by
  induction budget generalizing nodes with
  | zero =>
      apply chainsWithin_zero_iff.2
      intro inner hgives
      -- Without a budget, nothing is compiled inside helper elements.
      obtain ⟨scope, declared, output, hinner⟩ := h.of_gives hgives
      cases hinner
  | succ budget ih =>
      apply chainsWithin_succ_iff.2
      intro inner hgives
      exact ih (h.of_gives hgives)

end Success

/-! ## When compiling ends -/

/-- With a budget that is large enough, compiling ends if there is no endless chain of helper
elements.  If there is one, it can only end with the error of a mistake.  The budget of a
document is large enough if no chain is longer, and in a document that is compiled none is. -/
theorem compile_ends (helpers : Table Helper) (parent : Option Compiled) (nodes : List Node) :
    ((∃ output, CompilesTo helpers parent nodes output) ↔
      ¬ Endless helpers nodes ∨ ∃ error, CompilesTo helpers parent nodes (.error (.fault error))) ∧
    (ChainsWithin helpers (Node.depthOfAll nodes + helperReserve) nodes →
      compile helpers parent nodes ≠ .error .unfinished) ∧
    (∀ compiled, compile helpers parent nodes = .ok compiled →
      ChainsWithin helpers (Node.depthOfAll nodes + helperReserve) nodes) := by
  refine ⟨?_, ?_, ?_⟩
  · constructor
    · rintro ⟨output, houtput⟩
      obtain ⟨hfinished, budget, heq⟩ := id houtput
      match output with
      | .ok value =>
          left
          apply not_endless_iff.2
          exact ⟨budget, chainsWithin_of_compileWithin ⟨none, .empty, value, heq⟩⟩
      | .error (.fault error) => exact .inr ⟨error, houtput⟩
      | .error .unfinished => exact absurd rfl hfinished
    · rintro (hchains | ⟨error, herror⟩)
      · obtain ⟨budget, hbudget⟩ := not_endless_iff.1 hchains
        exact ⟨_, endsOn_compileWithin hbudget none .empty, budget, rfl⟩
      · exact ⟨_, herror⟩
  · intro hchains hunfinished
    exact endsOn_compileWithin hchains none .empty (map_eq_error_iff.1 hunfinished)
  · intro compiled hcompiled
    obtain ⟨output, houtput, -⟩ := map_eq_ok_iff.1 hcompiled
    exact chainsWithin_of_compileWithin ⟨none, .empty, output, houtput⟩

/-- A helper element with a tag and nothing else, as it is read from `@name`. -/
def call (name : String) : Heading := ⟨true, some name, none, none⟩

/-- The two items that a menu consists of. -/
def items : List Node :=
  [.element ⟨call "item", none, ⟨0, "@item"⟩⟩, .element ⟨call "item", none, ⟨5, "@item"⟩⟩]

/-- A menu is replaced by its items, and an item by a text. -/
def menuHelpers : Table Helper :=
  (Table.empty.insert "item" (.constant [computedText "item"])).insert "menu" (.constant items)

/-- A document that consists of a menu. -/
def menu : List Node := [.element ⟨call "menu", none, ⟨0, "@menu"⟩⟩]

/-- Here the chains end after two steps, with the text of an item. -/
theorem menu_ends :
    (∃ output, CompilesTo menuHelpers none menu output) ∧
      compile menuHelpers none menu ≠ .error .unfinished := by
  let size : Element → Nat := fun element => if element.heading.tag = some "menu" then 1 else 0
  have hchains : ChainsWithin menuHelpers 2 menu := by
    apply chainsWithin_of_lt size
    · intro element helper hrequire inside hinside
      obtain ⟨tag, htag, hget⟩ := requireHelper_eq_ok hrequire
      rw [menuHelpers, Table.get?_insert, Table.get?_insert, Table.get?_empty] at hget
      split at hget
      · rename_i hmenu
        cases hget
        have hitem : inside.heading = call "item" := by
          simp only [Helper.constant, Option.getD_some, items, helperElements, helperElementsOf,
            call, if_true, List.append_nil, List.mem_append, List.mem_singleton] at hinside
          rcases hinside with rfl | rfl <;> rfl
        simp [size, hitem, htag, hmenu, call]
      · split at hget
        · cases hget
          simp [Helper.constant, helperElements, helperElementsOf, computedText] at hinside
        · cases hget
    · simp [menu, helperElements, helperElementsOf, call, size]
  constructor
  · exact (compile_ends menuHelpers none menu).1.2 (.inl (not_endless_iff.2 ⟨2, hchains⟩))
  · apply (compile_ends menuHelpers none menu).2.1
    intro chain hchain
    exact (hchains chain hchain).trans (by decide)

/-! ## A helper that gives itself -/

/-- The heading of the only node of a list, if this is an element. -/
def soleHeading? : List Node → Option Heading
  | [.element element] => some element.heading
  | _ => none

theorem soleHeading?_eq_some {nodes : List Node} {heading : Heading}
    (h : soleHeading? nodes = some heading) :
    ∃ element, nodes = [.element element] ∧ element.heading = heading := by
  unfold soleHeading? at h
  split at h
  · rename_i element
    cases h
    exact ⟨element, rfl, rfl⟩
  · cases h

theorem writtenOut_call {helpers : Table Helper} {name : String} {helper : Helper}
    {element : Element} (hget : helpers.get? name = some helper)
    (hheading : element.heading = call name) :
    WrittenOut helpers [.element element] ((helper element).getD []) := by
  have hrequire : requireHelper helpers element = .ok helper := by
    simp [requireHelper, hheading, call, hget]
  apply WrittenOut.nodes _ _ hrequire
  · rw [hheading]
    rfl
  · rw [Element.name?, hheading]
    rfl

/-- If a helper gives nothing but a call of itself, no budget is enough for a call of it. -/
theorem compileWithin_call {helpers : Table Helper} {parent : Option Compiled} {name : String}
    {helper : Helper} (hget : helpers.get? name = some helper)
    (hgiven : ∀ element, soleHeading? ((helper element).getD []) = some (call name))
    (budget : Nat) {nodes : List Node} (hnodes : soleHeading? nodes = some (call name))
    (scope : Option String) (declared : Declarations) :
    compileWithin helpers parent budget scope declared nodes = .error .unfinished := by
  induction budget generalizing nodes with
  | zero =>
      obtain ⟨element, rfl, hheading⟩ := soleHeading?_eq_some hnodes
      rw [(writtenOut_call hget hheading).compileWithin_eq]
      rfl
  | succ budget ih =>
      obtain ⟨element, rfl, hheading⟩ := soleHeading?_eq_some hnodes
      rw [(writtenOut_call hget hheading).compileWithin_eq]
      exact ih (hgiven element)

/-- A document with one element is what its source is parsed to. -/
theorem exists_parse_of_soleHeading? {source : String} {heading : Heading}
    (h : (parse source).toOption.bind (fun block => soleHeading? block.content) =
      some heading) :
    ∃ block, parse source = .ok block ∧ soleHeading? block.content = some heading := by
  cases hparse : parse source with
  | error error =>
      rw [hparse] at h
      cases h
  | ok block =>
      rw [hparse] at h
      exact ⟨block, rfl, h⟩

/-- A document that calls a helper whose source is a call of this helper.  It compiles to nothing,
with any budget. -/
theorem selfCall_never_ends :
    ∃ helper registry block, (Recipe.source "@loop").build = .ok helper ∧
      Registry.initial.register "loop" helper = some registry ∧
      parse "#b\n@loop" = .ok block ∧
      (∀ output, ¬ CompilesTo registry.helpers none block.content output) ∧
      compile registry.helpers none block.content = .error .unfinished := by
  obtain ⟨given, hgiven, hgivenHeading⟩ : ∃ block, parse "@loop" = .ok block ∧
      soleHeading? block.content = some (call "loop") :=
    exists_parse_of_soleHeading? (by decide +kernel)
  obtain ⟨block, hblock, hheading⟩ : ∃ block, parse "#b\n@loop" = .ok block ∧
      soleHeading? block.content = some (call "loop") :=
    exists_parse_of_soleHeading? (by decide +kernel)
  let helper : Helper := .constant given.content
  have hget : (Registry.initial.helpers.insert "loop" helper).get? "loop" = some helper :=
    Table.get?_insert_self _ _ _
  have hnever : ∀ budget, compileWithin (Registry.initial.helpers.insert "loop" helper) none
      budget none .empty block.content = .error .unfinished := by
    intro budget
    exact compileWithin_call hget (fun _ => hgivenHeading) budget hheading none .empty
  refine ⟨helper, ⟨_, false⟩, block, ?_, rfl, hblock, ?_, ?_⟩
  · rw [Recipe.build, hgiven]
    rfl
  · rintro output ⟨hfinished, budget, rfl⟩
    exact hfinished (hnever budget)
  · rw [compile, hnever]
    rfl

end BemMarkup.Template

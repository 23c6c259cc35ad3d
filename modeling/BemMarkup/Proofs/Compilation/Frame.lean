import BemMarkup.Proofs.Compilation.Derivation
import BemMarkup.Proofs.Compilation.Inlining
import BemMarkup.Proofs.Interpreter.Expansion
import BemMarkup.Proofs.Rendering.Locality

/-!
# What a document leaves as it is

Compiling nodes enters names into the tables, and only those of the elements and regions that are
written in the nodes, or in what their helpers give.  Every other name keeps the renderer that it
had, and nodes in which no name is written leave all three tables as they are.

Two things follow for a document that is compiled over a parent, because its own top level is never
rendered: the root is the parent's.  If nothing that the document declares is reached from there,
it is rendered like the parent.  And what declares nothing may be put on its top level or taken
away from it: what it compiles to is not only alike, it is the same.

## Main definitions

* `Enters`: nodes in which a name is written.
* `Inert`: a text, a comment, or an element without a name in which no name is written.
* `SameButInert`: two lists of nodes that differ by such nodes only.

## Main results

* `Compiles.exists_grows`: what compiling nodes does to the tables.
* `pieces_of_unreached`: a document that declares nothing of what its parent reaches.
* `SameButInert.compile_eq`: inert nodes have no part in what a document compiles to.
-/

namespace BemMarkup.Template

open Document

/-! ## Declared names -/

mutual

/-- The names of the elements and regions in a tree. -/
def Expanded.declaredNames : Expanded → List String
  | .text _ | .superCall _ => []
  | .element heading _ children => Expanded.declaredNamesOfAll children ++ heading.name?.toList
  | .region name children => Expanded.declaredNamesOfAll children ++ [name]

/-- The names of the elements and regions in content. -/
def Expanded.declaredNamesOfAll : List Expanded → List String
  | [] => []
  | tree :: trees => tree.declaredNames ++ Expanded.declaredNamesOfAll trees

end

theorem declaredNamesOfAll_append (xs ys : List Expanded) :
    Expanded.declaredNamesOfAll (xs ++ ys) =
      Expanded.declaredNamesOfAll xs ++ Expanded.declaredNamesOfAll ys := by
  induction xs with
  | nil => simp [Expanded.declaredNamesOfAll]
  | cons x xs ih => simp [Expanded.declaredNamesOfAll, ih]

/-- Only the given names have got other renderers, and without any the tables are the same. -/
structure Grows (names : List String) (before after : Declarations) : Prop where
  /-- Nothing is entered without a name. -/
  same : names = [] → after = before
  /-- Other names keep their renderers. -/
  others : ∀ name, name ∉ names → after.renderers.get? name = before.renderers.get? name

section Grows

variable {names others : List String} {before middle after : Declarations}

theorem Grows.refl (declared : Declarations) : Grows [] declared declared :=
  ⟨fun _ => rfl, fun _ _ => rfl⟩

theorem Grows.trans (h : Grows names before middle) (h' : Grows others middle after) :
    Grows (names ++ others) before after := by
  constructor
  · intro hnames
    obtain ⟨hfirst, hsecond⟩ := List.append_eq_nil_iff.1 hnames
    rw [h'.same hsecond, h.same hfirst]
  · intro name hname
    rw [List.mem_append, not_or] at hname
    rw [h'.others name hname.2, h.others name hname.1]

/-- An element or a region enters its own name besides those inside of it. -/
theorem Grows.define (h : Grows names middle after)
    (hmiddle : middle.renderers = before.renderers) (name : String) (renderer : Renderer) :
    Grows (names ++ [name]) before (after.define name renderer) := by
  constructor
  · intro hnames
    exact absurd hnames (List.append_ne_nil_of_right_ne_nil names (List.cons_ne_nil name []))
  · intro other hother
    rw [List.mem_append, List.mem_singleton, not_or] at hother
    show (after.renderers.insert name renderer).get? other = _
    rw [Table.get?_insert_of_ne _ _ hother.2, h.others other hother.1, hmiddle]

end Grows

/-! ## Expanding node by node -/

section Declaring

variable {helpers : Table Helper}

/-- Whatever the fuel, expanding goes through the nodes, and only what helpers give depends on
it. -/
theorem exists_expandWithin_eq (helpers : Table Helper) (fuel : Nat) :
    ∃ again, expandWithin helpers fuel = expandNodes helpers again := by
  cases fuel with
  | zero => exact ⟨_, rfl⟩
  | succ fuel => exact ⟨_, rfl⟩

theorem expandWithin_cons {fuel : Nat} {node : Node} {nodes : List Node}
    {first rest : List Expanded} (hnode : expandWithin helpers fuel [node] = some first)
    (hnodes : expandWithin helpers fuel nodes = some rest) :
    expandWithin helpers fuel (node :: nodes) = some (first ++ rest) := by
  obtain ⟨again, heq⟩ := exists_expandWithin_eq helpers fuel
  rw [heq] at hnode hnodes ⊢
  obtain ⟨trees, others, htrees, hothers, rfl⟩ := expandNodes_cons_eq_some.1 hnode
  rw [expandNodes_nil] at hothers
  obtain rfl := Option.some.inj hothers
  rw [List.append_nil]
  exact expandNodes_cons_eq_some.2 ⟨trees, rest, htrees, hnodes, rfl⟩

theorem expandWithin_singleton {fuel : Nat} {node : Node} {trees : List Expanded}
    (h : ∀ again, expandWithin helpers fuel = expandNodes helpers again →
      expandNode helpers again node = some trees) :
    expandWithin helpers fuel [node] = some trees := by
  obtain ⟨again, heq⟩ := exists_expandWithin_eq helpers fuel
  rw [heq]
  exact expandNodes_cons_eq_some.2 ⟨trees, [], h again heq, expandNodes_nil,
    (List.append_nil trees).symm⟩

theorem expandWithin_element {fuel : Nat} {element : Element} {children : List Expanded}
    (hhelper : element.heading.isHelper = false)
    (hchildren : expandWithin helpers fuel (Node.element element).children = some children) :
    expandWithin helpers fuel [.element element] =
      some [.element element.heading element.content.isSome children] := by
  apply expandWithin_singleton
  intro again heq
  rw [heq] at hchildren
  rw [expandNode_element hhelper, hchildren]
  rfl

/-- The step to the nodes of a helper takes a unit of fuel. -/
theorem expandWithin_helper {fuel : Nat} {element : Element} {helper : Helper}
    {trees : List Expanded} (hhelper : element.heading.isHelper = true)
    (hrequire : requireHelper helpers element = .ok helper)
    (htrees : expandWithin helpers fuel ((helper element).getD []) = some trees) :
    expandWithin helpers (fuel + 1) [.element element] =
      some (match element.heading.name? with
        | none => trees
        | some name => [.region name trees]) := by
  obtain ⟨tag, htag, hget⟩ := requireHelper_eq_ok hrequire
  refine expandNodes_cons_eq_some.2 ⟨_, [], ?_, expandNodes_nil, (List.append_nil _).symm⟩
  rw [expandNode_helper hhelper, expandHelper, htag]
  show (helpers.get? tag).bind _ = _
  rw [hget]
  show (expandWithin helpers fuel ((helper element).getD [])).bind _ = _
  rw [htrees]
  show (match element.heading.name? with | none => some trees | some name => _) = _
  cases element.heading.name? with
  | none => rfl
  | some name => rfl

/-! ## What nodes declare -/

variable {parent : Option Compiled} {scope : Option String} {before after : Declarations}
  {nodes : List Node} {fragments : List Fragment}

/-- Compiling nodes enters the names that are declared in what they expand to. -/
theorem Compiles.exists_grows (h : Compiles helpers parent scope before nodes fragments after) :
    ∃ fuel trees, expandWithin helpers fuel nodes = some trees ∧
      Grows (Expanded.declaredNamesOfAll trees) before after := by
  induction h with
  | nil => exact ⟨0, [], expandNodes_nil, .refl _⟩
  | cons _ _ ihFirst ihRest =>
      obtain ⟨n, xs, hxs, hfirst⟩ := ihFirst
      obtain ⟨m, ys, hys, hrest⟩ := ihRest
      refine ⟨max n m, xs ++ ys, ?_, ?_⟩
      -- Both parts need a fuel of their own, and the larger one does for both.
      · apply expandWithin_cons
        · exact expandWithin_mono (Nat.le_max_left n m) hxs
        · exact expandWithin_mono (Nat.le_max_right n m) hys
      · rw [declaredNamesOfAll_append]
        exact hfirst.trans hrest
  | literal literal =>
      exact ⟨0, _, expandWithin_singleton fun _ _ => expandNode_literal literal, .refl _⟩
  | comment comment =>
      exact ⟨0, _, expandWithin_singleton fun _ _ => expandNode_comment comment, .refl _⟩
  | @superCall _ _ call _ _ =>
      exact ⟨0, _, expandWithin_singleton fun _ _ => expandNode_superCall call, .refl _⟩
  | @named _ before inside element name tag attributes content hhelper hname _ _ ih =>
      obtain ⟨fuel, children, hchildren, hgrows⟩ := ih
      refine ⟨fuel, _, expandWithin_element hhelper hchildren, ?_⟩
      -- Announcing the element enters a tag and attributes, but no renderer yet.
      have hannounced : (before.announce name tag attributes).renderers = before.renderers := rfl
      have hnames : Grows (Expanded.declaredNamesOfAll children ++ [name]) before
          (inside.define name (.ofElement tag attributes element.heading.names
            element.content.isSome content)) :=
        hgrows.define hannounced name _
      simpa [Expanded.declaredNamesOfAll, Expanded.declaredNames, hname] using hnames
  | unnamed hhelper hname _ _ ih =>
      obtain ⟨fuel, children, hchildren, hgrows⟩ := ih
      refine ⟨fuel, _, expandWithin_element hhelper hchildren, ?_⟩
      simpa [Expanded.declaredNamesOfAll, Expanded.declaredNames, hname] using hgrows
  | @region _ before inside element helper name content hhelper hrequire hname _ ih =>
      obtain ⟨fuel, trees, htrees, hgrows⟩ := ih
      refine ⟨fuel + 1, _, expandWithin_helper hhelper hrequire htrees, ?_⟩
      have hnames : Grows (Expanded.declaredNamesOfAll trees ++ [name]) before
          (inside.define name (.region content)) := hgrows.define rfl name _
      rw [hname]
      simpa [Expanded.declaredNamesOfAll, Expanded.declaredNames] using hnames
  | helper hhelper hrequire hname _ ih =>
      obtain ⟨fuel, trees, htrees, hgrows⟩ := ih
      refine ⟨fuel + 1, _, expandWithin_helper hhelper hrequire htrees, ?_⟩
      rw [hname]
      exact hgrows

end Declaring

/-! ## Nodes that declare nothing -/

/-- The nodes, or what their helpers give, hold an element or a region with this name. -/
def Enters (helpers : Table Helper) (nodes : List Node) (name : String) : Prop :=
  ∃ fuel trees, expandWithin helpers fuel nodes = some trees ∧
    name ∈ Expanded.declaredNamesOfAll trees

/-- A text, a comment, or an element without a name in which no element has one.  It may be a
helper element; then it is what the helper gives in which no element has a name. -/
inductive Inert (helpers : Table Helper) : Node → Prop
  /-- A text. -/
  | literal (literal : Literal) : Inert helpers (.literal literal)
  /-- A comment. -/
  | comment (comment : Comment) : Inert helpers (.comment comment)
  /-- An element. -/
  | element {element : Element} : element.name? = none →
      (∀ name, ¬ Enters helpers [.element element] name) → Inert helpers (.element element)

/-- Two lists of nodes that are the same but for inert nodes, which either of them may have
anywhere. -/
inductive SameButInert (helpers : Table Helper) : List Node → List Node → Prop
  /-- No nodes. -/
  | nil : SameButInert helpers [] []
  /-- A node that both have. -/
  | keep (node : Node) {nodes nodes' : List Node} :
      SameButInert helpers nodes nodes' → SameButInert helpers (node :: nodes) (node :: nodes')
  /-- An inert node that only the second has. -/
  | added {node : Node} {nodes nodes' : List Node} :
      Inert helpers node → SameButInert helpers nodes nodes' →
      SameButInert helpers nodes (node :: nodes')
  /-- An inert node that only the first has. -/
  | removed {node : Node} {nodes nodes' : List Node} :
      Inert helpers node → SameButInert helpers nodes nodes' →
      SameButInert helpers (node :: nodes) nodes'

section Inert

variable {helpers : Table Helper} {parent : Option Compiled} {scope : Option String}
  {before : Declarations} {node : Node} {nodes nodes' : List Node}

theorem Inert.not_enters (h : Inert helpers node) (name : String) :
    ¬ Enters helpers [node] name := by
  rintro ⟨fuel, trees, htrees, hname⟩
  cases h with
  | literal literal =>
      rw [expandWithin_singleton fun _ _ => expandNode_literal literal] at htrees
      cases htrees
      cases hname
  | comment comment =>
      rw [expandWithin_singleton fun _ _ => expandNode_comment comment] at htrees
      cases htrees
      cases hname
  | element _ hnames => exact hnames name ⟨fuel, trees, htrees, hname⟩

/-- An inert node leaves the tables as they are. -/
theorem Inert.after_eq (h : Inert helpers node) {budget : Nat} {fragments : List Fragment}
    {after : Declarations} (hnode : compileWithin helpers parent budget scope before [node] =
      .ok (fragments, after)) : after = before := by
  obtain ⟨fuel, trees, htrees, hgrows⟩ := (compiles_of_compileWithin budget hnode).exists_grows
  apply hgrows.same
  apply List.eq_nil_iff_forall_not_mem.2
  intro name hname
  exact h.not_enters name ⟨fuel, trees, htrees, hname⟩

/-- If a node is compiled together with those after it, they are compiled from what it leaves. -/
theorem exists_of_compileWithin_cons {budget : Nat} {fragments : List Fragment}
    {after : Declarations}
    (h : compileWithin helpers parent budget scope before (node :: nodes) =
      .ok (fragments, after)) :
    ∃ first middle rest,
      compileWithin helpers parent budget scope before [node] = .ok (first, middle) ∧
      compileWithin helpers parent budget scope middle nodes = .ok (rest, after) := by
  rw [compileWithin_eq, compileNodes_cons] at h
  obtain ⟨⟨first, middle⟩, hnode, h⟩ := bind_eq_ok_iff.1 h
  obtain ⟨⟨rest, last⟩, hnodes, h⟩ := bind_eq_ok_iff.1 h
  cases h
  refine ⟨first, middle, rest, ?_, ?_⟩
  · rw [compileWithin_eq, compileNodes_singleton, hnode]
  · rw [compileWithin_eq, hnodes]

/-- Nodes that differ by inert nodes leave the same tables behind. -/
theorem SameButInert.after_eq (h : SameButInert helpers nodes nodes') {budget : Nat}
    {fragments fragments' : List Fragment} {after after' : Declarations}
    (hnodes : compileWithin helpers parent budget scope before nodes = .ok (fragments, after))
    (hnodes' : compileWithin helpers parent budget scope before nodes' =
      .ok (fragments', after')) : after = after' := by
  induction h generalizing before fragments fragments' with
  | nil =>
      rw [hnodes] at hnodes'
      cases hnodes'
      rfl
  | keep node _ ih =>
      obtain ⟨first, middle, rest, hnode, hrest⟩ := exists_of_compileWithin_cons hnodes
      obtain ⟨first', middle', rest', hnode', hrest'⟩ := exists_of_compileWithin_cons hnodes'
      rw [hnode] at hnode'
      cases hnode'
      exact ih hrest hrest'
  | added hinert _ ih =>
      obtain ⟨first, middle, rest, hnode, hrest⟩ := exists_of_compileWithin_cons hnodes'
      rw [hinert.after_eq hnode] at hrest
      exact ih hnodes hrest
  | removed hinert _ ih =>
      obtain ⟨first, middle, rest, hnode, hrest⟩ := exists_of_compileWithin_cons hnodes
      rw [hinert.after_eq hnode] at hrest
      exact ih hrest hnodes'

end Inert

/-! ## Documents with a parent -/

section Children

variable {helpers : Table Helper} {parent child child' : Compiled} {nodes nodes' : List Node}

/-- What a document compiles to is given by the tables alone, and any larger budget gives the same
tables. -/
theorem exists_of_compile (h : compile helpers (some parent) nodes = .ok child) :
    ∃ declared, child = .extend (some parent) [] declared ∧ ∀ more, ∃ root,
      compileWithin helpers (some parent) (Node.depthOfAll nodes + helperReserve + more) none
        .empty nodes = .ok (root, declared) := by
  obtain ⟨⟨root, declared⟩, hcompiled, rfl⟩ := map_eq_ok_iff.1 h
  refine ⟨declared, rfl, ?_⟩
  intro more
  have hle := Nat.le_add_right (Node.depthOfAll nodes + helperReserve) more
  have hmore : Approximates (compileWithin helpers (some parent) _ none .empty nodes)
      (compileWithin helpers (some parent) _ none .empty nodes) :=
    compileWithin_mono hle nodes none .empty
  rw [hcompiled] at hmore
  have hfinished : Except.ok (root, declared) ≠ .error Stop.unfinished := by simp
  exact ⟨root, (hmore.eq_of_ne hfinished).symm⟩

/-- Inert nodes have no part in what a document with a parent compiles to. -/
theorem SameButInert.compile_eq (h : SameButInert helpers nodes nodes')
    (hchild : compile helpers (some parent) nodes = .ok child)
    (hchild' : compile helpers (some parent) nodes' = .ok child') : child = child' := by
  obtain ⟨declared, rfl, hlarger⟩ := exists_of_compile hchild
  obtain ⟨declared', rfl, hlarger'⟩ := exists_of_compile hchild'
  -- The two lists need not nest equally deep, so they are compared with the sum of their budgets.
  obtain ⟨root, hroot⟩ := hlarger (Node.depthOfAll nodes' + helperReserve)
  obtain ⟨root', hroot'⟩ := hlarger' (Node.depthOfAll nodes + helperReserve)
  rw [Nat.add_comm] at hroot'
  rw [h.after_eq hroot hroot']

/-- A document that declares nothing of what its parent reaches is rendered like its parent. -/
theorem pieces_of_unreached (hchild : compile helpers (some parent) nodes = .ok child)
    (hunreached : ∀ name, Enters helpers nodes name → ¬ parent.Reaches name) :
    child.pieces = parent.pieces := by
  obtain ⟨root, declared, hcompiles, rfl⟩ := exists_compiles_of_compile hchild
  obtain ⟨fuel, trees, htrees, hgrows⟩ := hcompiles.exists_grows
  have hroot : (Compiled.extend (some parent) root declared).root = parent.root := rfl
  apply Compiled.pieces_eq_of_reaches hroot
  intro name hreached
  have hname : name ∉ Expanded.declaredNamesOfAll trees := by
    intro hname
    exact hunreached name ⟨fuel, trees, htrees, hname⟩ hreached
  apply SamePieces.of_eq
  show _ = Layers.get? (declared.renderers :: parent.renderers) name
  rw [Layers.get?_cons, hgrows.others name hname]
  rfl

end Children

end BemMarkup.Template

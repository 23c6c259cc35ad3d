import BemMarkup.Proofs.Compilation.Closure
import BemMarkup.Proofs.Compilation.Markup

/-!
# Names that are declared again

Of two elements with one name the one that is completed last counts, for every call of the
name, also for the calls that have been left behind before.  So the calls between the
renderers of a template are not the nesting of its document: of `a{b} b{a}` each element
contains the other, and yet nothing is rendered without end.

The reason is the order in which elements are completed.  An element is defined when all
that stands inside it has been compiled.  What is declared inside it has been defined last
inside it as well, and calls only what is declared there.  If the element's own name is not
among these names, no calls lead from its renderer back to it.  This is an invariant of
compilation: following calls comes to an end, from wherever it starts.

A parent would break it, because content of the parent can be spliced in that calls an
element from outside.

## Main definitions

* `Unnested`: no element stands inside another one of its name.

## Main results

* `Table.Grounded.insert`: when a name can be given a new renderer.
* `Compiles.declares_of_calls`: content is closed under calls.
* `Compiles.grounded`: compilation keeps calls from going on forever.
* `render_of_unnested`: without a parent and without nested names, rendering succeeds.
-/

namespace BemMarkup.Template

open Document Relation

/-! ## Names that are declared -/

section Declaring

variable {name : String} {node : Node} {nodes : List Node} {element : Element}

/-- The name that a node has as an element or as a helper element. -/
def declaredName? : Node → Option String
  | .element element => element.name?
  | .literal _ | .comment _ | .superCall _ => none

/-- A name is declared in content: by one of its nodes or anywhere inside one. -/
inductive Declares (name : String) : List Node → Prop
  /-- By the first node. -/
  | here {node : Node} {nodes : List Node} : declaredName? node = some name →
      Declares name (node :: nodes)
  /-- Inside the first node. -/
  | inside {node : Node} {nodes : List Node} : Declares name node.children →
      Declares name (node :: nodes)
  /-- Behind the first node. -/
  | behind {node : Node} {nodes : List Node} : Declares name nodes → Declares name (node :: nodes)

/-- No element and no region stands inside another one of its name, however deep. -/
def Unnested (nodes : List Node) : Prop :=
  Everywhere (fun node => ∀ name, declaredName? node = some name → ¬ Declares name node.children)
    nodes

theorem declares_cons_iff :
    Declares name (node :: nodes) ↔ Declares name [node] ∨ Declares name nodes := by
  constructor
  · intro h
    cases h with
    | here h => exact .inl (.here h)
    | inside h => exact .inl (.inside h)
    | behind h => exact .inr h
  · rintro (h | h)
    · cases h with
      | here h => exact .here h
      | inside h => exact .inside h
      | behind h => cases h
    · exact .behind h

theorem declares_element_iff :
    Declares name [.element element] ↔
      element.heading.name? = some name ∨ Declares name (Node.element element).children := by
  constructor
  · intro h
    cases h with
    | here h => exact .inl h
    | inside h => exact .inr h
    | behind h => cases h
  · rintro (h | h)
    · exact .here h
    · exact .inside h

end Declaring

/-! ## Calls in one table -/

section Calls

variable {table : Table Renderer} {renderer : Renderer} {name outer inner : String}

/-- The renderer that a table has for `outer` calls `inner`. -/
def Table.Calls (table : Table Renderer) (outer inner : String) : Prop :=
  ∃ renderer, table.get? outer = some renderer ∧ inner ∈ renderer.calls

theorem calls_singleton_iff : Template.Calls [table] outer inner ↔ table.Calls outer inner := by
  simp [Template.Calls, Table.Calls, Renderer.calls, Layers.get?_cons]

theorem Table.calls_insert_self :
    (table.insert name renderer).Calls name inner ↔ inner ∈ renderer.calls := by
  simp [Table.Calls]

theorem Table.calls_insert_of_ne (h : outer ≠ name) :
    (table.insert name renderer).Calls outer inner ↔ table.Calls outer inner := by
  rw [Table.Calls, get?_insert_of_ne table renderer h, ← Table.Calls]

/-- Following calls comes to an end, from wherever it starts. -/
def Table.Grounded (table : Table Renderer) : Prop :=
  ∀ name, Acc (fun inner outer => table.Calls outer inner) name

/-- A name can be given a new renderer if calls that start from this renderer stay among names
that do not include it. -/
theorem Table.Grounded.insert (h : table.Grounded) {among : String → Prop}
    (hclosed : ∀ outer inner, among outer → table.Calls outer inner → among inner)
    (hname : ¬ among name) (hcalls : ∀ inner ∈ renderer.calls, among inner) :
    (table.insert name renderer).Grounded := by
  have hamong : ∀ outer, among outer →
      Acc (fun inner outer => (table.insert name renderer).Calls outer inner) outer := by
    intro outer houter
    induction h outer with
    | intro outer _ ih =>
        have hne : outer ≠ name := by
          rintro rfl
          exact hname houter
        refine Acc.intro outer fun inner hinner => ?_
        rw [calls_insert_of_ne hne] at hinner
        exact ih inner hinner (hclosed outer inner houter hinner)
  have hself : Acc (fun inner outer => (table.insert name renderer).Calls outer inner) name :=
    Acc.intro name fun inner hinner => hamong inner (hcalls inner (calls_insert_self.1 hinner))
  intro outer
  induction h outer with
  | intro outer _ ih =>
      by_cases hne : outer = name
      · rw [hne]
        exact hself
      · refine Acc.intro outer fun inner hinner => ih inner ?_
        rwa [calls_insert_of_ne hne] at hinner

end Calls

/-! ## Compilation without a parent -/

section Compilation

variable {scope : Option String} {before after : Declarations} {nodes : List Node}
  {fragments : List Fragment} {name : String}

/-- A name that is not declared keeps its renderer. -/
theorem Compiles.get?_of_not_declares
    (h : Compiles Registry.initial.helpers none scope before nodes fragments after)
    (hname : ¬ Declares name nodes) : after.renderers.get? name = before.renderers.get? name := by
  induction h with
  | nil | literal | comment | superCall => rfl
  | cons _ _ ihFirst ihRest =>
      rw [declares_cons_iff, not_or] at hname
      rw [ihRest hname.2, ihFirst hname.1]
  | named _ hnamed _ _ ih =>
      rw [declares_element_iff, not_or, hnamed] at hname
      have hne : name ≠ _ := fun h => hname.1 (congrArg some h.symm)
      exact (Table.get?_insert_of_ne _ _ hne).trans (ih hname.2)
  | unnamed _ _ _ _ ih =>
      rw [declares_element_iff, not_or] at hname
      exact ih hname.2
  | region _ hrequire hnamed _ ih =>
      cases eq_content_of_requireHelper hrequire
      rw [declares_element_iff, not_or, hnamed] at hname
      have hne : name ≠ _ := fun h => hname.1 (congrArg some h.symm)
      exact (Table.get?_insert_of_ne _ _ hne).trans (ih hname.2)
  | helper _ hrequire _ _ ih =>
      cases eq_content_of_requireHelper hrequire
      rw [declares_element_iff, not_or] at hname
      exact ih hname.2

/-- Fragments call only what is declared in the content that they are compiled from. -/
theorem Compiles.declares_of_mem_calls
    (h : Compiles Registry.initial.helpers none scope before nodes fragments after) :
    ∀ inner ∈ Fragment.callsOfAll fragments, Declares inner nodes := by
  induction h with
  | nil | literal | comment => simp
  | cons _ _ ihFirst ihRest =>
      intro inner hinner
      rw [Fragment.callsOfAll_append, List.mem_append] at hinner
      exact declares_cons_iff.2 (hinner.imp (ihFirst inner) (ihRest inner))
  | superCall hcontent =>
      obtain ⟨compiled, _, _, hparent, -⟩ := superContent_eq_ok hcontent
      cases hparent
  | named _ hnamed _ _ _ | region _ _ hnamed _ _ =>
      intro inner hinner
      rw [Fragment.callsOfAll_element, Fragment.callsOfAll_nil, List.mem_singleton] at hinner
      exact hinner ▸ .here hnamed
  | unnamed _ _ _ _ ih =>
      intro inner hinner
      rw [Renderer.callsOfAll_fragments, ← Renderer.calls, calls_ofElement] at hinner
      exact .inside (ih inner hinner)
  | helper _ hrequire _ _ ih =>
      cases eq_content_of_requireHelper hrequire
      exact fun inner hinner => .inside (ih inner hinner)

/-- What an element declares inside itself cannot call anything else once the element has got its
renderer. -/
theorem declares_of_calls_define {inside : Declarations} {element : Element} {renderer : Renderer}
    (hcalls : ∀ inner ∈ renderer.calls, Declares inner (Node.element element).children)
    (hinside : ∀ outer inner, Declares outer (Node.element element).children →
      inside.renderers.Calls outer inner → Declares inner (Node.element element).children)
    (hnamed : element.heading.name? = some name) {outer inner : String}
    (houter : Declares outer [.element element])
    (hcall : (inside.define name renderer).renderers.Calls outer inner) :
    Declares inner [.element element] := by
  refine .inside ?_
  by_cases hname : outer = name
  · rw [hname] at hcall
    exact hcalls inner (Table.calls_insert_self.1 hcall)
  · rw [declares_element_iff, hnamed] at houter
    have houter := houter.resolve_left fun h => hname (Option.some.inj h).symm
    exact hinside outer inner houter ((Table.calls_insert_of_ne hname).1 hcall)

/-- What is declared in content calls only what is declared in it as well. -/
theorem Compiles.declares_of_calls
    (h : Compiles Registry.initial.helpers none scope before nodes fragments after) :
    ∀ outer inner, Declares outer nodes → after.renderers.Calls outer inner →
      Declares inner nodes := by
  induction h with
  | nil =>
      intro outer inner houter
      cases houter
  | literal | comment | superCall =>
      intro outer inner houter
      cases houter with
      | here h => cases h
      | inside h => cases h
      | behind h => cases h
  | @cons _ _ _ _ _ nodes _ _ _ hrest ihFirst ihRest =>
      intro outer inner houter hcall
      rw [declares_cons_iff] at houter ⊢
      by_cases hbehind : Declares outer nodes
      · exact .inr (ihRest outer inner hbehind hcall)
      · rw [Table.Calls, hrest.get?_of_not_declares hbehind] at hcall
        exact .inl (ihFirst outer inner (houter.resolve_right hbehind) hcall)
  | named _ hnamed _ hcontent ih =>
      intro outer inner
      refine declares_of_calls_define ?_ ih hnamed
      rw [calls_ofElement]
      exact hcontent.declares_of_mem_calls
  | unnamed _ hnamed _ _ ih =>
      intro outer inner houter hcall
      rw [declares_element_iff, hnamed] at houter
      exact .inside (ih outer inner (houter.resolve_left nofun) hcall)
  | region _ hrequire hnamed hcontent ih =>
      cases eq_content_of_requireHelper hrequire
      intro outer inner
      refine declares_of_calls_define ?_ ih hnamed
      rw [calls_region]
      exact hcontent.declares_of_mem_calls
  | helper _ hrequire hnamed _ ih =>
      cases eq_content_of_requireHelper hrequire
      intro outer inner houter hcall
      rw [declares_element_iff, hnamed] at houter
      exact .inside (ih outer inner (houter.resolve_left nofun) hcall)

/-- Compiling unnested content keeps the calls grounded. -/
theorem Compiles.grounded
    (h : Compiles Registry.initial.helpers none scope before nodes fragments after)
    (hnodes : Unnested nodes) (hbefore : before.renderers.Grounded) :
    after.renderers.Grounded := by
  induction h with
  | nil | literal | comment | superCall => exact hbefore
  | cons _ _ ihFirst ihRest =>
      cases hnodes with
      | cons hnode hchildren hrest =>
          exact ihRest hrest (ihFirst (.cons hnode hchildren .nil) hbefore)
  | named _ hnamed _ hcontent ih =>
      cases hnodes with
      | cons hnode hchildren _ =>
          refine (ih hchildren hbefore).insert hcontent.declares_of_calls (hnode _ hnamed) ?_
          rw [calls_ofElement]
          exact hcontent.declares_of_mem_calls
  | unnamed _ _ _ _ ih =>
      cases hnodes with
      | cons _ hchildren _ => exact ih hchildren hbefore
  | region _ hrequire hnamed hcontent ih =>
      cases eq_content_of_requireHelper hrequire
      cases hnodes with
      | cons hnode hchildren _ =>
          refine (ih hchildren hbefore).insert hcontent.declares_of_calls (hnode _ hnamed) ?_
          rw [calls_region]
          exact hcontent.declares_of_mem_calls
  | helper _ hrequire _ _ ih =>
      cases eq_content_of_requireHelper hrequire
      cases hnodes with
      | cons _ hchildren _ => exact ih hchildren hbefore

end Compilation

/-! ## Rendering -/

section Rendering

variable {nodes : List Node} {compiled : Compiled}

/-- The calls of a template without a parent and without nested names lead into no cycle. -/
theorem Unnested.not_leadsToCycle (h : Unnested nodes)
    (hcompile : compile Registry.initial.helpers none nodes = .ok compiled) (name : String) :
    ¬ LeadsToCycle compiled.renderers name := by
  obtain ⟨root, declared, hcompiles, rfl⟩ := exists_compiles_of_compile hcompile
  have hempty : Declarations.empty.renderers.Grounded :=
    fun name => Acc.intro name fun inner ⟨_, hget, _⟩ => nomatch hget
  have hgrounded := hcompiles.grounded h hempty name
  refine not_leadsToCycle_of_acc ?_
  simpa only [renderers_extend, Declarations.layers, Option.elim_none, calls_singleton_iff]
    using hgrounded

/-- Such a template is rendered. -/
theorem Unnested.exists_render (h : Unnested nodes)
    (hcompile : compile Registry.initial.helpers none nodes = .ok compiled) (stems : List String) :
    ∃ html, compiled.render stems = .ok html := by
  have hwhole : compiled.Whole := .of_compile (by simp) hcompile
  obtain ⟨pieces, hpieces⟩ := hwhole.closed.walk_eq_ok_of_no_cycle
    fun ⟨name, _, hcycle⟩ => h.not_leadsToCycle hcompile name hcycle
  exact ⟨_, Compiled.render_eq_ok_iff.2 ⟨pieces, hpieces, rfl⟩⟩

/-- So is each of its elements. -/
theorem Unnested.exists_renderElement? (h : Unnested nodes)
    (hcompile : compile Registry.initial.helpers none nodes = .ok compiled) (stems : List String)
    (name : String) : ∃ html, compiled.renderElement? stems name = .ok html := by
  have hwhole : compiled.Whole := .of_compile (by simp) hcompile
  cases hget : compiled.renderers.get? name with
  | none =>
      refine ⟨none, ?_⟩
      rw [Compiled.renderElement?, Compiled.elementPieces, hget]
      rfl
  | some renderer =>
      obtain ⟨pieces, -, hhtml⟩ := (Compiled.renderElement?_iff_no_cycle hwhole.closed hget).2
        (h.not_leadsToCycle hcompile name)
      exact ⟨_, hhtml⟩

end Rendering

/-! ## Sessions -/

/-- A template without a parent is compiled by itself. -/
theorem compileAfresh_singleton (helpers : Table Helper) (id : String) (generation : Generation) :
    compileAfresh helpers id [generation] =
      (compile helpers none generation.nodes).mapError .ofStop :=
  compileAfresh_cons rfl

/-- Take a document in which no element and no region stands inside another one of its name, and
only the helper `section`.  If it is compiled without a parent, it is rendered, and so is every
element by itself, however often names are declared again and whatever they call. -/
theorem render_of_unnested {nodes : List Node} (h : Unnested nodes) :
    (∀ compiled, compile Registry.initial.helpers none nodes = .ok compiled → ∀ stems,
      (∃ html, compiled.render stems = .ok html) ∧
        ∀ name, ∃ html, compiled.renderElement? stems name = .ok html) ∧
    ∀ actions id template, let s := (Session.initial.run actions).2
      s.template? id = some template → template.parent = none → template.nodes = nodes →
      s.registry.helpers = Registry.initial.helpers →
      (s.perform (.compile id)).1 = .ok .done →
        (∃ html, (s.perform (.render id)).1 = .ok (.markup html)) ∧
          ∀ name, ∃ html, (s.perform (.renderElement id name)).1 = .ok (.element html) := by
  refine ⟨fun compiled hcompiled stems => ⟨h.exists_render hcompiled stems,
    h.exists_renderElement? hcompiled stems⟩, ?_⟩
  intro actions id template s htemplate hparent hnodes hhelpers hdone
  have hs : s.Sound := Session.Sound.initial.run actions
  have hchain : s.chain id = [template.generation] := by
    rw [hs.chain_eq htemplate, hparent]
    rfl
  -- the session compiles what `compile` gives for the document
  have hafresh : compileAfresh s.registry.helpers id (s.chain id) =
      (compile Registry.initial.helpers none nodes).mapError .ofStop := by
    rw [hchain, hhelpers, ← hnodes, compileAfresh_singleton]
    rfl
  obtain ⟨compiled, hok, -⟩ := map_eq_ok_iff.1 ((hs.compileTemplate_fst id).symm.trans hdone)
  have hcompiled : compile Registry.initial.helpers none nodes = .ok compiled :=
    mapError_eq_ok_iff.1 (hafresh.symm.trans hok)
  constructor
  · obtain ⟨html, hhtml⟩ := h.exists_render hcompiled (chainStems (s.chain id))
    refine ⟨html, (hs.renderTemplate id).1.trans ?_⟩
    rw [renderAfresh, hok]
    dsimp only
    rw [hhtml]
  · intro name
    obtain ⟨html, hhtml⟩ := h.exists_renderElement? hcompiled (chainStems (s.chain id)) name
    refine ⟨html, (hs.renderElementOf id name).1.trans ?_⟩
    rw [renderElementAfresh, hok]
    dsimp only
    rw [hhtml]

/-- An element around another one, and then a region of the inner name around an element of the
outer name. -/
def crossedPair : List Node :=
  [.element ⟨⟨false, some "div", some [some "a"], none⟩,
      some [.element ⟨⟨false, some "span", some [some "b"], none⟩, none, ⟨0, ""⟩⟩], ⟨0, ""⟩⟩,
    .element ⟨⟨true, some "section", some [some "b"], none⟩,
      some [.element ⟨⟨false, some "div", some [some "a"], none⟩, none, ⟨0, ""⟩⟩], ⟨0, ""⟩⟩]

/-- A run that makes a template of it. -/
def crossedPage : List Action :=
  [.create "page" (.block ⟨none, some "page", crossedPair, ⟨0, ""⟩⟩) ⟨none, none, none⟩]

theorem crossedPair_is_rendered :
    Unnested crossedPair ∧
      (∃ compiled, compile Registry.initial.helpers none crossedPair = .ok compiled ∧
        ∃ html, compiled.render ["page__", ""] = .ok html) ∧
      ∃ html, ((Session.initial.run crossedPage).2.perform (.render "page")).1 =
        .ok (.markup html) := by
  have hunnested : Unnested crossedPair := by
    have hleaf : ∀ name, ¬ Declares name [] := fun name h => nomatch h
    refine .cons ?_ (.cons ?_ .nil .nil) (.cons ?_ (.cons ?_ .nil .nil) .nil)
    · rintro name ⟨⟩ hinside
      exact (declares_element_iff.1 hinside).elim (by decide) (hleaf "a")
    · exact fun name _ => hleaf name
    · rintro name ⟨⟩ hinside
      exact (declares_element_iff.1 hinside).elim (by decide) (hleaf "b")
    · exact fun name _ => hleaf name
  have hsome : (compile Registry.initial.helpers none crossedPair).toOption.isSome = true := by
    decide +kernel
  obtain ⟨hrender, hsession⟩ := render_of_unnested hunnested
  cases hcompile : compile Registry.initial.helpers none crossedPair with
  | error stop =>
      rw [hcompile] at hsome
      cases hsome
  | ok compiled =>
      have hafresh : compileAfresh Registry.initial.helpers "page" [⟨crossedPair, ["page"]⟩] =
          .ok compiled :=
        (compileAfresh_singleton _ _ _).trans (mapError_eq_ok_iff.2 hcompile)
      have hdone : ((Session.initial.run crossedPage).2.perform (.compile "page")).1 =
          .ok .done :=
        ((Session.Sound.initial.run crossedPage).compileTemplate_fst "page").trans
          (congrArg (Except.map fun _ => Answer.done) hafresh)
      exact ⟨hunnested, ⟨compiled, rfl, (hrender compiled hcompile ["page__", ""]).1⟩,
        (hsession crossedPage "page" _ rfl rfl rfl rfl hdone).1⟩

end BemMarkup.Template

import BemMarkup.Proofs.Compilation.Derivation
import BemMarkup.Proofs.Rendering.Cycles
import BemMarkup.Proofs.Session.Memory

/-!
# No call is left without a renderer

A fragment calls an element by its name, and only when a template is rendered the name is
looked up, in whatever template that is.  Such a call is left behind by an element with a
name, and this element is defined before its call is put where it stands.  Nothing is ever
taken back: a later renderer of the same name replaces an earlier one, a descendant puts its
own in front of those of its ancestors, and the name keeps having one.  Content that a super
call splices in calls only what the parent knows, and the parent is a layer of the child.

So every name that is mentioned anywhere has a renderer.  This holds for all renderers of
all layers, also for those that are hidden by others and can be reached by super calls only.

## Main definitions

* `Compiled.mentions`: the names of all elements that are called anywhere.

## Main results

* `Compiles.mentions_subset`: compiling leaves no call of an unknown element.
* `Compiled.Whole.of_compileChain`: neither does a chain.
* `mentions_have_renderers`: what a template mentions has renderers in it and in every
  descendant, and rendering never asks for an element without one.
-/

namespace BemMarkup.Template

open Document

/-! ## Mentions -/

/-- The elements that a renderer calls. -/
def Renderer.calls (renderer : Renderer) : List String :=
  Fragment.callsOfAll renderer.opening ++ Fragment.callsOfAll renderer.content

/-- The elements that the renderers of a table call. -/
def Table.calls (table : Table Renderer) : List String :=
  table.entries.flatMap fun entry => entry.2.calls

/-- The elements that are called anywhere in a template: by its root and by every renderer
of every layer, whether it is hidden by another or not. -/
def Compiled.mentions (compiled : Compiled) : List String :=
  Fragment.callsOfAll compiled.root ++ compiled.renderers.flatMap Table.calls

theorem Table.calls_insert_subset (table : Table Renderer) (name : String)
    (renderer : Renderer) : (table.insert name renderer).calls ⊆ renderer.calls ++ table.calls := by
  rw [calls, insert, List.flatMap_cons]
  refine List.append_subset.2 ⟨List.subset_append_left _ _, ?_⟩
  refine List.Subset.trans ?_ (List.subset_append_right _ _)
  intro inner hinner
  obtain ⟨entry, hentry, hcall⟩ := List.mem_flatMap.1 hinner
  exact List.mem_flatMap.2 ⟨entry, (List.mem_filter.1 hentry).1, hcall⟩

/-- What is found in the layers calls only what the layers call. -/
theorem Layers.calls_subset_of_get? {layers : Layers Renderer} {name : String}
    {renderer : Renderer} (h : layers.get? name = some renderer) :
    renderer.calls ⊆ layers.flatMap Table.calls := by
  intro inner hinner
  obtain ⟨table, htable, hentry⟩ := Layers.exists_mem_entries_of_get? h
  exact List.mem_flatMap.2 ⟨table, htable, List.mem_flatMap.2 ⟨_, hentry, hinner⟩⟩

/-- An opening tag calls no element. -/
@[simp] theorem callsOfAll_openingTag (tag : String) (attributes : AttributeList)
    (names : Option (List (Option String))) :
    Fragment.callsOfAll (openingTag tag attributes names) = [] := by
  have hslot : ∀ slot : Attribute,
      Fragment.callsOfAll (slotAttribute (classSource names) slot) = [] := by
    intro slot
    unfold slotAttribute
    split
    · split <;> simp [classAttribute, plainAttribute]
    · simp [plainAttribute]
  have hslots : ∀ slots : List Attribute,
      Fragment.callsOfAll (slots.flatMap (slotAttribute (classSource names))) = [] := by
    intro slots
    induction slots with
    | nil => simp
    | cons slot slots ih => rw [List.flatMap_cons, Fragment.callsOfAll_append, hslot, ih]; rfl
  have hleading : Fragment.callsOfAll (leadingClass (classSource names) attributes) = [] := by
    unfold leadingClass
    split
    · split <;> simp [classAttribute]
    · simp
  simp [openingTag, hleading, hslots]

theorem calls_ofElement (tag : String) (attributes : AttributeList)
    (names : Option (List (Option String))) (hasBraces : Bool) (content : List Fragment) :
    (Renderer.ofElement tag attributes names hasBraces content).calls =
      Fragment.callsOfAll content := by
  simp [Renderer.calls, Renderer.ofElement]

theorem calls_region (content : List Fragment) :
    (Renderer.region content).calls = Fragment.callsOfAll content := by
  simp [Renderer.calls, Renderer.region]

/-! ## Compilation -/

/-- The renderers of a template that is being compiled, in front of those of its parent. -/
def Declarations.layers (declared : Declarations) (parent : Option Compiled) :
    Layers Renderer :=
  declared.renderers :: parent.elim [] (·.renderers)

/-- Every element that the template calls has a renderer. -/
def Compiled.Whole (compiled : Compiled) : Prop :=
  compiled.mentions ⊆ compiled.renderers.names

section Compilation

variable {helpers : Table Helper} {parent : Option Compiled} {scope : Option String}
  {before after : Declarations} {nodes : List Node} {fragments : List Fragment}

theorem names_layers_define_subset (declared : Declarations) (name : String)
    (renderer : Renderer) :
    (declared.layers parent).names ⊆ ((declared.define name renderer).layers parent).names := by
  intro key hkey
  rw [Declarations.layers, Layers.names_cons, List.mem_append] at hkey ⊢
  exact hkey.imp_left Table.mem_names_insert_of_mem

theorem mem_names_layers_define (declared : Declarations) (name : String)
    (renderer : Renderer) :
    name ∈ ((declared.define name renderer).layers parent).names := by
  rw [Declarations.layers, Layers.names_cons]
  exact List.mem_append_left _ Table.mem_names_insert_self

/-- A renderer is never taken back. -/
theorem Compiles.names_subset (h : Compiles helpers parent scope before nodes fragments after) :
    (before.layers parent).names ⊆ (after.layers parent).names := by
  induction h with
  | nil | literal | comment | superCall => exact List.Subset.refl _
  | cons _ _ ihFirst ihRest => exact List.Subset.trans ihFirst ihRest
  | named _ _ _ _ ih => exact List.Subset.trans ih (names_layers_define_subset _ _ _)
  | unnamed _ _ _ _ ih => exact ih
  | region _ _ _ _ ih => exact List.Subset.trans ih (names_layers_define_subset _ _ _)
  | helper _ _ _ _ ih => exact ih

/-- An element is defined after all that its renderer calls. -/
theorem calls_define_subset {declared : Declarations} {renderer : Renderer}
    (hdeclared : declared.renderers.calls ⊆ (declared.layers parent).names)
    (hcalls : renderer.calls ⊆ (declared.layers parent).names) (name : String) :
    (declared.define name renderer).renderers.calls ⊆
      ((declared.define name renderer).layers parent).names :=
  List.Subset.trans (Table.calls_insert_subset _ _ _) <|
    List.Subset.trans (List.append_subset.2 ⟨hcalls, hdeclared⟩)
      (names_layers_define_subset declared name renderer)

/-- Compiling over a parent that calls no unknown element leaves no call of one, neither in
the fragments nor in any renderer. -/
theorem Compiles.mentions_subset (hparent : ∀ compiled, parent = some compiled → compiled.Whole)
    (h : Compiles helpers parent scope before nodes fragments after)
    (hbefore : before.renderers.calls ⊆ (before.layers parent).names) :
    Fragment.callsOfAll fragments ⊆ (after.layers parent).names ∧
      after.renderers.calls ⊆ (after.layers parent).names := by
  induction h with
  | nil | comment => exact ⟨by simp, hbefore⟩
  | literal => exact ⟨by simp, hbefore⟩
  | cons hfirst hrest ihFirst ihRest =>
      obtain ⟨hcalls, hmiddle⟩ := ihFirst hbefore
      obtain ⟨hcalls', hafter⟩ := ihRest hmiddle
      rw [Fragment.callsOfAll_append]
      exact ⟨List.append_subset.2 ⟨List.Subset.trans hcalls hrest.names_subset, hcalls'⟩, hafter⟩
  | @superCall scope declared call content hcontent =>
      obtain ⟨compiled, around, renderer, rfl, -, hget, rfl⟩ := superContent_eq_ok hcontent
      refine ⟨?_, hbefore⟩
      intro name hname
      have hmention : name ∈ compiled.mentions :=
        List.mem_append_right _
          (Layers.calls_subset_of_get? hget (List.mem_append_right _ (by simpa using hname)))
      rw [Declarations.layers, Layers.names_cons]
      exact List.mem_append_right _ (hparent compiled rfl hmention)
  | named _ _ _ _ ih =>
      obtain ⟨hcalls, hinside⟩ := ih hbefore
      refine ⟨?_, calls_define_subset hinside (by rw [calls_ofElement]; exact hcalls) _⟩
      simpa using mem_names_layers_define _ _ _
  | unnamed _ _ _ _ ih =>
      obtain ⟨hcalls, hinside⟩ := ih hbefore
      rw [Renderer.callsOfAll_fragments, ← Renderer.calls, calls_ofElement]
      exact ⟨hcalls, hinside⟩
  | region _ _ _ _ ih =>
      obtain ⟨hcalls, hinside⟩ := ih hbefore
      refine ⟨?_, calls_define_subset hinside (by rw [calls_region]; exact hcalls) _⟩
      simpa using mem_names_layers_define _ _ _
  | helper _ _ _ _ ih => exact ih hbefore

end Compilation

/-! ## Chains -/

theorem renderers_extend (parent : Option Compiled) (root : List Fragment)
    (declared : Declarations) :
    (Compiled.extend parent root declared).renderers = declared.layers parent := by
  cases parent <;> rfl

section Chains

variable {helpers : Table Helper} {documents : List (List Node)} {compiled : Compiled}

/-- A template that extends one without unknown elements has none itself. -/
theorem Compiled.Whole.of_compile {parent : Option Compiled}
    (hparent : ∀ compiled, parent = some compiled → compiled.Whole) {nodes : List Node}
    (h : compile helpers parent nodes = .ok compiled) : compiled.Whole := by
  obtain ⟨root, declared, hcompiles, rfl⟩ := exists_compiles_of_compile h
  have hempty : Declarations.empty.renderers.calls ⊆ (Declarations.empty.layers parent).names :=
    List.nil_subset _
  obtain ⟨hroot, hdeclared⟩ := hcompiles.mentions_subset hparent hempty
  rw [Whole, mentions, renderers_extend]
  cases parent with
  | none =>
      refine List.append_subset.2 ⟨hroot, ?_⟩
      rw [Declarations.layers, Option.elim_none, List.flatMap_singleton]
      exact hdeclared
  | some above =>
      have habove := List.append_subset.1 (hparent above rfl)
      have hlayers : above.renderers.names ⊆ (declared.layers (some above)).names := by
        rw [Declarations.layers, Layers.names_cons]
        exact List.subset_append_right _ _
      refine List.append_subset.2 ⟨List.Subset.trans habove.1 hlayers, ?_⟩
      rw [Declarations.layers, Option.elim_some, List.flatMap_cons]
      exact List.append_subset.2 ⟨hdeclared, List.Subset.trans habove.2 hlayers⟩

/-- A chain that compiles calls no element without a renderer. -/
theorem Compiled.Whole.of_compileChain
    (h : compileChain helpers documents = .ok (some compiled)) : compiled.Whole := by
  refine compileChain_induct
    (motive := fun _ result => ∀ compiled, result = some compiled → compiled.Whole)
    ?_ ?_ documents h compiled rfl
  · intro compiled hnone
    cases hnone
  · rintro _ parent nodes compiled _ hparent hcompile _ ⟨⟩
    exact .of_compile hparent hcompile

/-- A descendant has the renderers of a template behind its own. -/
theorem renderers_suffix (h : compileChain helpers documents = .ok (some compiled))
    (more : List (List Node)) :
    ∀ {descendant : Compiled}, compileChain helpers (documents ++ more) = .ok (some descendant) →
      compiled.renderers <:+ descendant.renderers := by
  induction more using List.reverseRecOn with
  | nil =>
      intro descendant h'
      rw [List.append_nil, h] at h'
      cases h'
      exact List.suffix_rfl
  | append_singleton more nodes ih =>
      intro descendant h'
      rw [← List.append_assoc, compileChain_append_singleton] at h'
      obtain ⟨parent, hparent, h'⟩ := bind_eq_ok_iff.1 h'
      obtain ⟨last, hlast, hdescendant⟩ := map_eq_ok_iff.1 h'
      cases hdescendant
      obtain ⟨root, declared, -, rfl⟩ := exists_compiles_of_compile hlast
      cases parent with
      | none =>
          have hne : documents ++ more ≠ [] := by
            rintro hnil
            rw [(List.append_eq_nil_iff.1 hnil).1] at h
            cases h
          exact absurd rfl (compileChain_ne_none hparent hne)
      | some parent =>
          rw [renderers_extend]
          exact (ih hparent).trans (List.suffix_cons _ _)

end Chains

/-! ## Rendering -/

section Rendering

variable {compiled : Compiled}

/-- Where no unknown element is called, no call is without a renderer. -/
theorem Compiled.Whole.closed (h : compiled.Whole) :
    Closed compiled.renderers compiled.root where
  start := by
    intro name hname
    exact Layers.exists_get?_of_mem_names (h (List.mem_append_left _ hname))
  calls := by
    rintro outer inner ⟨renderer, hget, hinner⟩
    have hmention := List.mem_append_right (Fragment.callsOfAll compiled.root)
      (Layers.calls_subset_of_get? hget hinner)
    exact Layers.exists_get?_of_mem_names (h hmention)

/-- The only fault is then that an element contains itself. -/
theorem Compiled.Whole.render_ne_undefined (h : compiled.Whole) (stems : List String)
    (name : String) : compiled.render stems ≠ .error (.undefined name) := by
  intro hrender
  have hpieces := map_eq_error_iff.1 hrender
  obtain ⟨-, inner, through, hfault⟩ := h.closed.leadsToCycle_of_fault hpieces
  cases hfault

theorem Compiled.Whole.renderElement?_ne_undefined (h : compiled.Whole) (stems : List String)
    (element name : String) :
    compiled.renderElement? stems element ≠ .error (.undefined name) := by
  intro hrender
  have hpieces := map_eq_error_iff.1 hrender
  rw [elementPieces] at hpieces
  split at hpieces
  · cases hpieces
  · rename_i renderer hget
    obtain ⟨-, inner, through, hfault⟩ := Template.leadsToCycle_of_fault h.closed.calls
      (by simp) ⟨renderer, hget⟩ (map_eq_error_iff.1 hpieces)
    cases hfault

theorem head?_toList_append {text : String} {c : Char} (h : text.toList.head? = some c)
    (rest : String) : (text ++ rest).toList.head? = some c := by
  rw [String.toList_append, List.head?_append, h]
  rfl

theorem head?_message_undefined (name : String) :
    (RenderFault.undefined name).message.toList.head? = some 'n' := by
  unfold RenderFault.message
  dsimp only
  rw [String.append_assoc]
  exact head?_toList_append (by simp) _

theorem head?_message_selfContaining (name : String) (through : List String) :
    (RenderFault.selfContaining name through).message.toList.head? = some 'e' := by
  unfold RenderFault.message
  dsimp only
  rw [String.append_assoc, String.append_assoc]
  exact head?_toList_append (by simp) _

/-- A template that contains itself is not refused like one that calls an unknown element:
the wordings differ in their first letter. -/
theorem ofRenderFault_ne_undefined {fault : RenderFault}
    (h : ∀ name, fault ≠ .undefined name) (name : String) :
    Refusal.ofRenderFault fault ≠ .ofRenderFault (.undefined name) := by
  cases fault with
  | undefined other => exact absurd rfl (h other)
  | selfContaining inner through =>
      intro heq
      have hmessage : (RenderFault.selfContaining inner through).message =
          (RenderFault.undefined name).message := by
        simpa [Refusal.ofRenderFault] using heq
      have hletter := head?_message_selfContaining inner through
      rw [hmessage, head?_message_undefined] at hletter
      exact absurd hletter (by simp)

end Rendering

/-! ## Sessions -/

section Sessions

variable {helpers : Table Helper} {id : String} {chain : List Generation}

/-- Nothing that is wrong with a chain is a fault of rendering. -/
theorem ne_ofRenderFault_of_compileAfresh {refusal : Refusal}
    (h : compileAfresh helpers id chain = .error refusal) (fault : RenderFault) :
    refusal ≠ .ofRenderFault fault := by
  unfold compileAfresh at h
  split at h
  · rename_i stop _
    cases h
    cases stop <;> simp [Refusal.ofStop, Refusal.ofRenderFault]
  · cases h
    simp [Refusal.ofRenderFault]
  · cases h

theorem renderAfresh_ne_undefined (name : String) :
    renderAfresh helpers id chain ≠ .error (.ofRenderFault (.undefined name)) := by
  intro h
  unfold renderAfresh at h
  split at h
  · rename_i refusal hrefusal
    exact ne_ofRenderFault_of_compileAfresh hrefusal _ (Except.error.inj h)
  · rename_i compiled hcompiled
    have hwhole := Compiled.Whole.of_compileChain (compileAfresh_eq_ok_iff.1 hcompiled)
    split at h
    · rename_i fault hfault
      refine ofRenderFault_ne_undefined ?_ name (Except.error.inj h)
      rintro other rfl
      exact hwhole.render_ne_undefined _ other hfault
    · cases h

theorem renderElementAfresh_ne_undefined (element name : String) :
    renderElementAfresh helpers id chain element ≠ .error (.ofRenderFault (.undefined name)) := by
  intro h
  unfold renderElementAfresh at h
  split at h
  · rename_i refusal hrefusal
    exact ne_ofRenderFault_of_compileAfresh hrefusal _ (Except.error.inj h)
  · rename_i compiled hcompiled
    have hwhole := Compiled.Whole.of_compileChain (compileAfresh_eq_ok_iff.1 hcompiled)
    split at h
    · rename_i fault hfault
      refine ofRenderFault_ne_undefined ?_ name (Except.error.inj h)
      rintro other rfl
      exact hwhole.renderElement?_ne_undefined _ element other hfault
    · cases h

end Sessions

/-- What is called anywhere in a template of a chain, in fragments, in renderers, in renderers
that are hidden by others and in splices of any depth, has a renderer in the template and in
every descendant that compiles.  So no template is ever refused because an element has no
renderer, neither as a whole nor an element of it. -/
theorem mentions_have_renderers (helpers : Table Helper) (documents : List (List Node)) :
    (∀ compiled, compileChain helpers documents = .ok (some compiled) →
      (∀ name ∈ compiled.mentions, ∃ renderer, compiled.renderers.get? name = some renderer) ∧
      (∀ more descendant, compileChain helpers (documents ++ more) = .ok (some descendant) →
        ∀ name ∈ compiled.mentions,
          ∃ renderer, descendant.renderers.get? name = some renderer) ∧
      ∀ stems name, compiled.render stems ≠ .error (.undefined name) ∧
        ∀ element, compiled.renderElement? stems element ≠ .error (.undefined name)) ∧
    ∀ actions id name,
      ((Session.initial.run actions).2.perform (.render id)).1 ≠
          .error (.ofRenderFault (.undefined name)) ∧
        ∀ element, ((Session.initial.run actions).2.perform (.renderElement id element)).1 ≠
          .error (.ofRenderFault (.undefined name)) := by
  refine ⟨fun compiled hcompiled => ?_, fun actions id name => ?_⟩
  · have hwhole := Compiled.Whole.of_compileChain hcompiled
    refine ⟨fun name hname => Layers.exists_get?_of_mem_names (hwhole hname), ?_, ?_⟩
    · intro more descendant hdescendant name hname
      have hsuffix := renderers_suffix hcompiled more hdescendant
      exact Layers.exists_get?_of_mem_names
        (Layers.names_subset hsuffix.subset (hwhole hname))
    · intro stems name
      exact ⟨hwhole.render_ne_undefined stems name,
        fun element => hwhole.renderElement?_ne_undefined stems element name⟩
  · have hs : (Session.initial.run actions).2.Sound := Session.Sound.initial.run actions
    constructor
    · rw [show ((Session.initial.run actions).2.perform (.render id)).1 = _ from
        (hs.renderTemplate id).1]
      exact renderAfresh_ne_undefined name
    · intro element
      rw [show ((Session.initial.run actions).2.perform (.renderElement id element)).1 = _ from
        (hs.renderElementOf id element).1]
      exact renderElementAfresh_ne_undefined element name

/-- An element inside another. -/
def shelf : List Node :=
  [.element ⟨⟨false, some "div", some [some "shelf"], none⟩,
    some [.element ⟨⟨false, some "span", some [some "book"], none⟩, none, ⟨0, ""⟩⟩], ⟨0, ""⟩⟩]

/-- A region in place of the outer element, which takes over the content of the inner one. -/
def openShelf : List Node :=
  [.element ⟨⟨true, some "section", some [some "shelf"], none⟩,
    some [.superCall ⟨some "book", ⟨0, ""⟩⟩], ⟨0, ""⟩⟩]

theorem openShelf_has_renderers :
    ∃ compiled descendant,
      compileChain Registry.initial.helpers [shelf] = .ok (some compiled) ∧
        compileChain Registry.initial.helpers ([shelf] ++ [openShelf]) = .ok (some descendant) ∧
        compiled.mentions = ["shelf", "book"] ∧
        ∀ name ∈ compiled.mentions, ∃ renderer, descendant.renderers.get? name = some renderer := by
  have hmentions : (compileChain Registry.initial.helpers [shelf]).toOption.join.map
      Compiled.mentions = some ["shelf", "book"] := by decide +kernel
  have hsome : (compileChain Registry.initial.helpers
      ([shelf] ++ [openShelf])).toOption.join.isSome = true := by decide +kernel
  obtain ⟨compiled, hcompiled, hmentions⟩ := Option.map_eq_some_iff.1 hmentions
  obtain ⟨descendant, hdescendant⟩ := Option.isSome_iff_exists.1 hsome
  have hcompiled := eq_ok_of_toOption_join hcompiled
  have hdescendant := eq_ok_of_toOption_join hdescendant
  obtain ⟨-, hdescendants, -⟩ :=
    (mentions_have_renderers Registry.initial.helpers [shelf]).1 compiled hcompiled
  exact ⟨compiled, descendant, hcompiled, hdescendant, hmentions,
    hdescendants [openShelf] descendant hdescendant⟩

end BemMarkup.Template

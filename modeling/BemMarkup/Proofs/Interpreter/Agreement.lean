import BemMarkup.Proofs.Interpreter.Representation
import BemMarkup.Proofs.Rendering.CallGraph

/-!
# Rendering a compiled chain is interpreting it

`Representation` relates what is compiled to what is written.  Here the walk over compiled
fragments is followed along that relation: wherever the walk succeeds, the interpreter
gives the markup of the pieces that the walk leaves.

The walk ends by itself, while the interpreter runs on fuel.  A walk that succeeds tells
how much fuel suffices, but no statement has to say how much: `Settles` only asks that the
outcome is the same from some amount on.

## Main results

* `openingTag_markup`: an opening tag is written as `openMarkup` says.
* `markup_of_represents`: fragments are written like the content that they represent.
* `render_eq_interpretChain`: the markup of a template is the meaning of its chain.
-/

namespace BemMarkup.Template

open Document

/-! ## Opening tags -/

section Tags

variable {call : String → Except RenderFault (List Piece)} {stems : List String}

/-- Whatever calls do, the fragments are written as the given markup. -/
def Writes (call : String → Except RenderFault (List Piece)) (stems : List String)
    (fragments : List Fragment) (markup : String) : Prop :=
  ∃ pieces, Fragment.piecesOfAll call fragments = .ok pieces ∧ writePieces stems pieces = markup

@[simp] theorem writePieces_append (stems : List String) (xs ys : List Piece) :
    writePieces stems (xs ++ ys) = writePieces stems xs ++ writePieces stems ys := by
  simp [writePieces]

theorem Writes.nil : Writes call stems [] "" := ⟨[], Fragment.piecesOfAll_nil, rfl⟩

theorem Writes.append {xs ys : List Fragment} {a b : String} (hx : Writes call stems xs a)
    (hy : Writes call stems ys b) : Writes call stems (xs ++ ys) (a ++ b) := by
  obtain ⟨first, hfirst, rfl⟩ := hx
  obtain ⟨rest, hrest, rfl⟩ := hy
  exact ⟨first ++ rest, Fragment.piecesOfAll_append_eq_ok.2 ⟨first, rest, hfirst, hrest, rfl⟩,
    writePieces_append stems first rest⟩

theorem Writes.text (markup : String) : Writes call stems [.text markup] markup := by
  refine ⟨[.text markup], Fragment.piecesOfAll_cons_eq_ok.2 ⟨_, _, Fragment.pieces_text markup,
    Fragment.piecesOfAll_nil, rfl⟩, ?_⟩
  simp [writePieces, Piece.write]

theorem Writes.classes (names : List (Option String)) :
    Writes call stems [.classes names] (composeClasses stems names) := by
  refine ⟨[.classes names], Fragment.piecesOfAll_cons_eq_ok.2 ⟨_, _,
    Fragment.pieces_classes names, Fragment.piecesOfAll_nil, rfl⟩, ?_⟩
  simp [writePieces, Piece.write]

/-- Fragments that are made slot by slot are written slot by slot. -/
theorem Writes.flatMap {make : Attribute → List Fragment} {markup : Attribute → String}
    (h : ∀ slot, Writes call stems (make slot) (markup slot)) (slots : List Attribute) :
    Writes call stems (slots.flatMap make) (String.join (slots.map markup)) := by
  induction slots with
  | nil => exact .nil
  | cons slot slots ih =>
      have hboth := (h slot).append ih
      simpa using hboth

theorem classAttribute_writes (names : List (Option String)) (declared : String) :
    Writes call stems (classAttribute names declared)
      (attributeMarkup className (classValue stems names declared)) := by
  have h : Writes call stems _ _ := ((Writes.text (" " ++ className ++ "=\"")).append
    (.classes names)).append (.text ((if declared = "" then "" else " " ++ declared) ++ "\""))
  simpa [classAttribute, attributeMarkup, classValue, String.append_assoc] using h

theorem plainAttribute_writes (slot : Attribute) :
    Writes call stems (plainAttribute slot) (attributeMarkup slot.name (writtenValue slot)) :=
  .text _

/-- An opening tag is written as `openMarkup` says. -/
theorem openingTag_markup (tag : String) (attributes : AttributeList)
    (names : Option (List (Option String))) :
    Writes call stems (openingTag tag attributes names)
      (openMarkup stems tag attributes names) := by
  unfold openingTag openMarkup
  cases classSource names with
  | none =>
      have hslot : ∀ slot, Writes call stems (slotAttribute none slot)
          (attributeMarkup slot.name (writtenValue slot)) := plainAttribute_writes
      have h := ((Writes.text ("<" ++ tag)).append (.flatMap hslot attributes.slots)).append
        (.text ">")
      simpa [leadingClass] using h
  | some slots =>
      have hleading : Writes call stems (leadingClass (some slots) attributes)
          (if attributes.has className then ""
            else attributeMarkup className (classValue stems slots "")) := by
        rw [leadingClass]
        split
        · exact .nil
        · exact classAttribute_writes slots ""
      have hslot : ∀ slot, Writes call stems (slotAttribute (some slots) slot)
          (if slot.name = className then
              attributeMarkup className (classValue stems slots (writtenValue slot))
            else attributeMarkup slot.name (writtenValue slot)) := by
        intro slot
        rw [slotAttribute]
        split
        · exact classAttribute_writes slots (writtenValue slot)
        · exact plainAttribute_writes slot
      have h := (((Writes.text ("<" ++ tag)).append hleading).append
        (.flatMap hslot attributes.slots)).append (.text ">")
      simpa using h

theorem closingTag_writes (closing : Option String) :
    Writes call stems (closing.toList.map .text) (closing.getD "") := by
  cases closing with
  | none => exact .nil
  | some markup => exact .text markup

/-- Around what is inside it, an element is written as `elementMarkup` says. -/
theorem elementMarkup_of_piecesOfAll {tag : String} {attributes : AttributeList}
    {heading : Heading} {hasBraces : Bool} {content : List Fragment} {pieces : List Piece}
    (h : Fragment.piecesOfAll call
      (Renderer.ofElement tag attributes heading.names hasBraces content).fragments = .ok pieces) :
    ∃ inner, Fragment.piecesOfAll call content = .ok inner ∧
      writePieces stems pieces =
        elementMarkup stems tag attributes heading hasBraces (writePieces stems inner) := by
  obtain ⟨front, closing, hfront, hclosing, rfl⟩ := Fragment.piecesOfAll_append_eq_ok.1 h
  obtain ⟨opening, inner, hopening, hinner, rfl⟩ := Fragment.piecesOfAll_append_eq_ok.1 hfront
  obtain ⟨opening', hopening', hopen⟩ : Writes call stems _ _ :=
    openingTag_markup tag attributes heading.names
  obtain ⟨closing', hclosing', hclose⟩ : Writes call stems _ _ :=
    closingTag_writes (closingTag tag hasBraces)
  cases Except.ok.inj (hopening.symm.trans hopening')
  cases Except.ok.inj (hclosing.symm.trans hclosing')
  refine ⟨inner, hinner, ?_⟩
  rw [writePieces_append, writePieces_append, hopen, hclose]
  rfl

end Tags

/-! ## Enough fuel -/

/-- From some amount of fuel on, the outcome is the given markup. -/
def Settles (outcome : Nat → Option String) (markup : String) : Prop :=
  ∃ enough, ∀ fuel, enough ≤ fuel → outcome fuel = some markup

theorem Settles.of_eq {outcome : Nat → Option String} {markup : String}
    (h : ∀ fuel, outcome fuel = some markup) : Settles outcome markup :=
  ⟨0, fun fuel _ => h fuel⟩

/-- Outcomes settle together. -/
theorem Settles.append {first rest : Nat → Option String} {a b : String}
    (hfirst : Settles first a) (hrest : Settles rest b) :
    Settles (fun fuel => do
      let x ← first fuel
      let y ← rest fuel
      return x ++ y) (a ++ b) := by
  obtain ⟨n, hn⟩ := hfirst
  obtain ⟨m, hm⟩ := hrest
  refine ⟨max n m, fun fuel hfuel => ?_⟩
  dsimp only
  rw [hn fuel (by omega), hm fuel (by omega)]
  rfl

/-- What is done to an outcome is done to what it settles at. -/
theorem Settles.bind {outcome : Nat → Option String} {a b : String}
    (h : Settles outcome a) {f : String → Option String} (hf : f a = some b) :
    Settles (fun fuel => (outcome fuel).bind f) b := by
  obtain ⟨n, hn⟩ := h
  refine ⟨n, fun fuel hfuel => ?_⟩
  dsimp only
  rw [hn fuel hfuel]
  exact hf

section Walk

variable {stems : List String} {levels : List Level}

/-- With one unit of fuel more, a declaration can be entered. -/
theorem Settles.enter {below : List Level} {name : String} {children : List Expanded}
    {markup : String}
    (h : Settles (fun fuel => Expanded.markupOfAll stems levels
      (interpretWithin stems levels fuel) below (some name) children) markup) :
    Settles (fun fuel => interpretWithin stems levels fuel below name children) markup := by
  obtain ⟨n, hn⟩ := h
  refine ⟨n + 1, fun fuel hfuel => ?_⟩
  obtain ⟨fuel, rfl⟩ : ∃ k, fuel = k + 1 := ⟨fuel - 1, by omega⟩
  exact hn fuel (by omega)

/-- Trees are written one after the other. -/
theorem Settles.cons {below : List Level} {scope : Option String} {tree : Expanded}
    {trees : List Expanded} {a b : String}
    (hfirst : Settles (fun fuel => tree.markup stems levels (interpretWithin stems levels fuel)
      below scope) a)
    (hrest : Settles (fun fuel => Expanded.markupOfAll stems levels
      (interpretWithin stems levels fuel) below scope trees) b) :
    Settles (fun fuel => Expanded.markupOfAll stems levels (interpretWithin stems levels fuel)
      below scope (tree :: trees)) (a ++ b) := by
  simp only [Expanded.markupOfAll]
  exact hfirst.append hrest

/-! ## The walk and the interpreter -/

/-- Fragments are written like the content that they represent, if the elements that they
call are. -/
theorem markup_of_represents {call : String → Except RenderFault (List Piece)}
    (hcall : ∀ name inner, call name = .ok inner →
      Settles (fun fuel => callMarkup stems levels (interpretWithin stems levels fuel) name)
        (writePieces stems inner))
    {below : List Level} {scope : Option String} {trees : List Expanded}
    {fragments : List Fragment} (h : Represents below scope trees fragments) :
    ∀ {pieces : List Piece}, Fragment.piecesOfAll call fragments = .ok pieces →
      Settles (fun fuel => Expanded.markupOfAll stems levels (interpretWithin stems levels fuel)
        below scope trees) (writePieces stems pieces) := by
  induction h with
  | nil =>
      intro pieces hpieces
      cases Except.ok.inj (Fragment.piecesOfAll_nil.symm.trans hpieces)
      exact .of_eq fun fuel => by rw [Expanded.markupOfAll]; rfl
  | text value _ ih =>
      intro pieces hpieces
      obtain ⟨first, rest, hfirst, hrest, rfl⟩ := Fragment.piecesOfAll_cons_eq_ok.1 hpieces
      cases Except.ok.inj ((Fragment.pieces_text value).symm.trans hfirst)
      have hvalue : writePieces stems [.text value] = value := by
        simp [writePieces, Piece.write]
      rw [writePieces_append, hvalue]
      exact .cons (.of_eq fun fuel => by rw [Expanded.markup]) (ih hrest)
  | @superCall below deeper scope target name occurrence content trees fragments htarget hdecl _
      _ ihContent ih =>
      intro pieces hpieces
      obtain ⟨first, rest, hfirst, hrest, rfl⟩ := Fragment.piecesOfAll_cons_eq_ok.1 hpieces
      rw [Fragment.pieces_splice] at hfirst
      rw [writePieces_append]
      refine .cons ?_ (ih hrest)
      simp only [Expanded.markup, htarget, hdecl, Option.bind_eq_bind, Option.bind_some]
      exact (ihContent hfirst).enter
  | @named below scope heading hasBraces children trees fragments name hname _ ih =>
      intro pieces hpieces
      obtain ⟨first, rest, hfirst, hrest, rfl⟩ := Fragment.piecesOfAll_cons_eq_ok.1 hpieces
      rw [Fragment.pieces_element] at hfirst
      rw [writePieces_append]
      refine .cons ?_ (ih hrest)
      simp only [Expanded.markup, hname]
      exact hcall name first hfirst
  | @unnamed below scope heading hasBraces children trees inner fragments tag hname htag _ _
      ihInner ih =>
      intro pieces hpieces
      obtain ⟨first, rest, hfirst, hrest, rfl⟩ := Fragment.piecesOfAll_append_eq_ok.1 hpieces
      obtain ⟨content, hcontent, hmarkup⟩ := elementMarkup_of_piecesOfAll hfirst
      rw [writePieces_append, hmarkup]
      refine .cons ?_ (ih hrest)
      simp only [Expanded.markup, hname, htag]
      exact (ihInner hcontent).bind rfl
  | @region below scope name children trees fragments _ ih =>
      intro pieces hpieces
      obtain ⟨first, rest, hfirst, hrest, rfl⟩ := Fragment.piecesOfAll_cons_eq_ok.1 hpieces
      rw [Fragment.pieces_element] at hfirst
      rw [writePieces_append]
      refine .cons ?_ (ih hrest)
      simp only [Expanded.markup]
      exact hcall name first hfirst

/-- What is inside an occurrence is written inside its tags. -/
theorem outerMarkup_of_isRenderedBy {call : String → Except RenderFault (List Piece)}
    {below : List Level} {occurrence : Occurrence} {renderer : Renderer}
    (h : occurrence.IsRenderedBy below renderer) {pieces : List Piece}
    (hpieces : Fragment.piecesOfAll call renderer.fragments = .ok pieces) :
    ∃ inner, Fragment.piecesOfAll call renderer.content = .ok inner ∧
      occurrence.outerMarkup stems below (writePieces stems inner) =
        some (writePieces stems pieces) := by
  obtain ⟨content, -, h⟩ := h
  obtain ⟨name, tagged, before, children⟩ := occurrence
  cases tagged with
  | none =>
      have hrenderer : renderer = .region content := h
      subst hrenderer
      refine ⟨pieces, ?_, rfl⟩
      simpa [Renderer.fragments, Renderer.region] using hpieces
  | some tagged =>
      obtain ⟨heading, hasBraces⟩ := tagged
      obtain ⟨tag, htag, rfl⟩ := h
      obtain ⟨inner, hinner, hmarkup⟩ := @elementMarkup_of_piecesOfAll call stems _ _ _ _ _ _ hpieces
      refine ⟨inner, hinner, ?_⟩
      have hwritten : heading.tag.or ((writtenTag before name).or (tagFor below name)) = some tag :=
        htag
      rw [hmarkup]
      simp only [Occurrence.outerMarkup, hwritten]
      rfl

/-- A call that can be rendered is written like the declaration of its name. -/
theorem callMarkup_of_renderElement {renderers : Layers Renderer}
    (hrenderers : ∀ name, Renders (declaration levels name) (renderers.get? name))
    {active : List String} {name : String} :
    ∀ {inner : List Piece}, renderElement renderers active name = .ok inner →
      Settles (fun fuel => callMarkup stems levels (interpretWithin stems levels fuel) name)
        (writePieces stems inner) := by
  induction active, name using renderElement.induct renderers with
  | case1 active name hactive =>
      intro inner h
      rw [renderElement_of_mem hactive] at h
      cases h
  | case2 active name hactive hget =>
      intro inner h
      rw [renderElement_of_undefined hactive hget] at h
      cases h
  | case3 active name hactive renderer hget ih =>
      intro inner h
      rw [renderElement_of_defined hactive hget] at h
      have hrenders := hrenderers name
      cases hdecl : declaration levels name with
      | none =>
          rw [hdecl, hget] at hrenders
          cases hrenders
      | some found =>
          obtain ⟨occurrence, below⟩ := found
          rw [hdecl, hget] at hrenders
          obtain ⟨r, hr, hrendered⟩ := hrenders
          cases hr
          obtain ⟨content, hcontent, houter⟩ := outerMarkup_of_isRenderedBy hrendered h
          have hinside := markup_of_represents (fun other _ => ih other) hrendered.represents
            hcontent
          rw [declaration_name hdecl] at hinside
          simp only [callMarkup, hdecl, Option.bind_eq_bind, Option.bind_some]
          exact hinside.enter.bind houter

end Walk

/-! ## Chains -/

/-- Documents that extend a compiled template keep its root, expand to levels, and the
last of them reflects these on top of the levels of the template. -/
theorem extend_sound {helpers : Table Helper} {documents : List (List Node)} :
    ∀ {parent compiled : Compiled} {below : List Level}, parent.Reflects below →
      documents.foldlM (fun parent nodes => (compile helpers parent nodes).map some)
        (some parent) = .ok (some compiled) →
      compiled.root = parent.root ∧ ∃ enough levels, (∀ fuel, enough ≤ fuel →
          documents.mapM (expandWithin helpers fuel) = some levels) ∧
        compiled.Reflects (levels.reverse ++ below) := by
  induction documents with
  | nil =>
      intro parent compiled below hparent h
      cases h
      exact ⟨rfl, 0, [], fun fuel _ => rfl, hparent⟩
  | cons nodes documents ih =>
      intro parent compiled below hparent h
      rw [List.foldlM_cons] at h
      obtain ⟨_, hstep, h⟩ := bind_eq_ok_iff.1 h
      obtain ⟨next, hnext, rfl⟩ := map_eq_ok_iff.1 hstep
      obtain ⟨n, level, root, declared, hlevel, -, rfl, hreflects⟩ :=
        compile_sound (.of_some hparent) hnext
      obtain ⟨hroot, m, levels, hlevels, hcompiled⟩ := ih hreflects h
      refine ⟨hroot, max n m, level :: levels, fun fuel hfuel => ?_, by simpa using hcompiled⟩
      rw [List.mapM_cons, hlevel fuel (by omega), hlevels fuel (by omega)]
      rfl

/-- **Rendering is interpretation.**  Let a chain of documents compile, whatever the
helpers are, and let the template at its end be rendered.  Then, with enough fuel, the
markup is what the interpreter of the documents gives. -/
theorem render_eq_interpretChain {helpers : Table Helper} {documents : List (List Node)}
    {compiled : Compiled} {stems : List String} {html : String}
    (hcompile : compileChain helpers documents = .ok (some compiled))
    (hrender : compiled.render stems = .ok html) :
    ∃ enough, ∀ fuel, enough ≤ fuel →
      interpretChain helpers stems fuel documents = some html := by
  unfold compileChain at hcompile
  cases documents with
  | nil => cases hcompile
  | cons nodes documents =>
      rw [List.foldlM_cons] at hcompile
      obtain ⟨_, hstep, hcompile⟩ := bind_eq_ok_iff.1 hcompile
      obtain ⟨first, hfirst, rfl⟩ := map_eq_ok_iff.1 hstep
      obtain ⟨n, top, root, declared, htop, hrepresents, rfl, hreflects⟩ :=
        compile_sound .of_none hfirst
      obtain ⟨hroot, m, levels, hlevels, hcompiled⟩ := extend_sound hreflects hcompile
      obtain ⟨pieces, hpieces, rfl⟩ := map_eq_ok_iff.1 hrender
      rw [Compiled.pieces, hroot] at hpieces
      obtain ⟨k, hk⟩ := markup_of_represents
        (fun name inner => callMarkup_of_renderElement hcompiled.renderers) hrepresents hpieces
      refine ⟨max k (max n m), fun fuel hfuel => ?_⟩
      have hall : (nodes :: documents).mapM (expandWithin helpers fuel) = some (top :: levels) := by
        rw [List.mapM_cons, htop fuel (by omega), hlevels fuel (by omega)]
        rfl
      rw [interpretChain, hall]
      simpa using hk fuel (by omega)

/-- The content of `div/box(class='k'){'x'}`. -/
def box : List Node :=
  [.element ⟨⟨false, some "div", some [some "box"], some ⟨none, [⟨"class", "k"⟩], ⟨0, ""⟩⟩⟩,
    some [.literal ⟨"x", false, ⟨0, ""⟩⟩], ⟨0, ""⟩⟩]

/-- The content of `/box(super!){super! @section{'!'}}`. -/
def markedBox : List Node :=
  [.element ⟨⟨false, none, some [some "box"], some ⟨some ⟨none, ⟨0, ""⟩⟩, [], ⟨0, ""⟩⟩⟩,
    some [.superCall ⟨none, ⟨0, ""⟩⟩,
      .element ⟨⟨true, some "section", none, none⟩, some [.literal ⟨"!", false, ⟨0, ""⟩⟩],
        ⟨0, ""⟩⟩], ⟨0, ""⟩⟩]

theorem markedBox_is_interpreted :
    ∃ compiled, compileChain Registry.initial.helpers [box, markedBox] = .ok (some compiled) ∧
      compiled.render ["c__", "b__", ""] = .ok "<div class=\"c__box b__box k\">x!</div>" ∧
      ∃ enough, ∀ fuel, enough ≤ fuel →
        interpretChain Registry.initial.helpers ["c__", "b__", ""] fuel [box, markedBox] =
          some "<div class=\"c__box b__box k\">x!</div>" := by
  have hmarkup : (compileChain Registry.initial.helpers [box, markedBox]).toOption.join.map
      (fun compiled => (compiled.render ["c__", "b__", ""]).toOption) =
        some (some "<div class=\"c__box b__box k\">x!</div>") := by decide +kernel
  obtain ⟨compiled, hcompile, hrender⟩ := Option.map_eq_some_iff.1 hmarkup
  have hcompile := eq_ok_of_toOption_join hcompile
  have hrender : compiled.render ["c__", "b__", ""] =
      .ok "<div class=\"c__box b__box k\">x!</div>" := by
    cases hresult : compiled.render ["c__", "b__", ""] with
    | error fault =>
        rw [hresult] at hrender
        cases hrender
    | ok html =>
        rw [hresult] at hrender
        exact congrArg Except.ok (Option.some.inj hrender)
  exact ⟨compiled, hcompile, hrender, render_eq_interpretChain hcompile hrender⟩

end BemMarkup.Template

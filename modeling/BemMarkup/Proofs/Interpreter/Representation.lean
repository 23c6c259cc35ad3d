import BemMarkup.Proofs.Interpreter.Meaning
import BemMarkup.Result
import BemMarkup.Template.Compilation

/-!
# Compiled content represents its documents

Compiling goes over a document once and leaves fragments and three tables behind.
`Represents` says which fragments stand for which content, one rule for each kind of
content, and `Declarations.Reflects` what the tables hold after a part of a document:
what `declaration`, `tagFor` and `attributesFor` find in that part and in the levels below.

The tables are filled at different times.  An element enters its tag and attributes when
it starts, so these tables follow the headings; it enters its renderer when it is
completed, so this table follows the occurrences.  The two lists are therefore separate
indices of the invariant, and between the start of an element and its end the first is one
step ahead.

## Main results

* `compileNodes_sound`: compiling nodes gives fragments that represent them, and tables
  that reflect them.
* `compile_sound`: a compiled template reflects its level and those below.
-/

namespace BemMarkup.Template

open Document

/-! ## Fragments and content -/

/-- The fragments stand for the content of a level with the levels `below`, inside the
named element `scope`. -/
inductive Represents : List Level → Option String → List Expanded → List Fragment → Prop
  /-- No content. -/
  | nil {below : List Level} {scope : Option String} : Represents below scope [] []
  /-- A text. -/
  | text {below : List Level} {scope : Option String} {trees : List Expanded}
      {fragments : List Fragment} (value : String) :
      Represents below scope trees fragments →
      Represents below scope (.text value :: trees) (.text value :: fragments)
  /-- A super call: the content of a declaration below. -/
  | superCall {below deeper : List Level} {scope target : Option String} {name : String}
      {occurrence : Occurrence} {content : List Fragment} {trees : List Expanded}
      {fragments : List Fragment} :
      target.or scope = some name → declaration below name = some (occurrence, deeper) →
      Represents deeper (some name) occurrence.children content →
      Represents below scope trees fragments →
      Represents below scope (.superCall target :: trees) (.splice content :: fragments)
  /-- A named element. -/
  | named {below : List Level} {scope : Option String} {heading : Heading} {hasBraces : Bool}
      {children trees : List Expanded} {fragments : List Fragment} {name : String} :
      heading.name? = some name → Represents below scope trees fragments →
      Represents below scope (.element heading hasBraces children :: trees)
        (.element name :: fragments)
  /-- An element without a name. -/
  | unnamed {below : List Level} {scope : Option String} {heading : Heading} {hasBraces : Bool}
      {children trees : List Expanded} {inner fragments : List Fragment} {tag : String} :
      heading.name? = none → heading.tag = some tag → Represents below scope children inner →
      Represents below scope trees fragments →
      Represents below scope (.element heading hasBraces children :: trees)
        ((Renderer.ofElement tag (AttributeList.empty.extend heading.ownAttributes)
          heading.names hasBraces inner).fragments ++ fragments)
  /-- A region. -/
  | region {below : List Level} {scope : Option String} {name : String}
      {children trees : List Expanded} {fragments : List Fragment} :
      Represents below scope trees fragments →
      Represents below scope (.region name children :: trees) (.element name :: fragments)

theorem Represents.append {below : List Level} {scope : Option String} {xs ys : List Expanded}
    {fs gs : List Fragment} (hx : Represents below scope xs fs)
    (hy : Represents below scope ys gs) : Represents below scope (xs ++ ys) (fs ++ gs) := by
  induction hx with
  | nil => exact hy
  | text value _ ih => exact .text value (ih hy)
  | superCall htarget hdecl hcontent _ _ ih => exact .superCall htarget hdecl hcontent (ih hy)
  | named hname _ ih => exact .named hname (ih hy)
  | unnamed hname htag hinner _ _ ih =>
      rw [List.append_assoc]
      exact .unnamed hname htag hinner (ih hy)
  | region _ ih => exact .region (ih hy)

/-- The tag of an occurrence: its own, the last one written before it, or that of the
levels below. -/
def Occurrence.tagOver (below : List Level) (occurrence : Occurrence) (heading : Heading) :
    Option String :=
  heading.tag.or
    ((writtenTag occurrence.before occurrence.name).or (tagFor below occurrence.name))

/-- The renderer stands for an occurrence in a level with the levels `below`. -/
def Occurrence.IsRenderedBy (below : List Level) (occurrence : Occurrence)
    (renderer : Renderer) : Prop :=
  ∃ content, Represents below (some occurrence.name) occurrence.children content ∧
    match occurrence.tagged with
    | none => renderer = .region content
    | some (heading, hasBraces) => ∃ tag, occurrence.tagOver below heading = some tag ∧
        renderer = .ofElement tag (attributesOver (attributesFor below) occurrence.name heading)
          heading.names hasBraces content

/-! ## Tables and levels -/

/-- A renderer is there exactly for what has an occurrence, and stands for it. -/
def Renders (found : Option (Occurrence × List Level)) (renderer : Option Renderer) : Prop :=
  match found with
  | none => renderer = none
  | some (occurrence, below) => ∃ r, renderer = some r ∧ occurrence.IsRenderedBy below r

/-- The tables of a compiled template hold what the levels say. -/
structure Compiled.Reflects (compiled : Compiled) (levels : List Level) : Prop where
  tags : ∀ name, compiled.tags.get? name = tagFor levels name
  attributes : ∀ name, (compiled.attributes.get? name).getD .empty = attributesFor levels name
  renderers : ∀ name, Renders (declaration levels name) (compiled.renderers.get? name)

/-- The tables of declarations hold what a part of a level says: the headings that have
started in it, and the occurrences that are complete. -/
structure Declarations.Reflects (declared : Declarations) (below : List Level)
    (started : List Heading) (completed : List Occurrence) : Prop where
  tags : ∀ name, (declared.tags.get? name).or (tagFor below name) =
    (writtenTag started name).or (tagFor below name)
  attributes : ∀ name, declared.attributes.get? name =
    (lastHeading started name).map (attributesOver (attributesFor below) name)
  renderers : ∀ name, Renders ((lastOf name completed).map fun occurrence => (occurrence, below))
    (declared.renderers.get? name)

theorem Declarations.reflects_empty (below : List Level) :
    Declarations.empty.Reflects below [] [] := by
  constructor
  · intro name
    rfl
  · intro name
    rfl
  · intro name
    rfl

/-- What a document inherits from its parent, if it has one, is what the levels below say. -/
structure ParentReflects (parent : Option Compiled) (below : List Level) : Prop where
  tags : ∀ name, inheritedTag? parent name = tagFor below name
  attributes : ∀ name, (parent.bind (·.attributes.get? name)).getD .empty =
    attributesFor below name
  renderers : ∀ name, Renders (declaration below name) (parent.bind (·.renderers.get? name))

theorem ParentReflects.of_none : ParentReflects none [] := by
  constructor <;> exact fun name => rfl

theorem ParentReflects.of_some {compiled : Compiled} {below : List Level}
    (h : compiled.Reflects below) : ParentReflects (some compiled) below :=
  ⟨h.tags, h.attributes, h.renderers⟩

/-! ### Lists that grow at the end -/

theorem writtenTag_append (xs ys : List Heading) (name : String) :
    writtenTag (xs ++ ys) name = (writtenTag ys name).or (writtenTag xs name) := by
  rw [writtenTag, List.reverse_append, List.findSome?_append, writtenTag, writtenTag]

theorem writtenTag_append_singleton (headings : List Heading) (heading : Heading) (name : String) :
    writtenTag (headings ++ [heading]) name =
      (if heading.name? = some name then heading.tag else none).or (writtenTag headings name) := by
  rw [writtenTag_append]
  congr 1
  rw [writtenTag, List.reverse_singleton, List.findSome?_singleton]

theorem lastHeading_append (xs ys : List Heading) (name : String) :
    lastHeading (xs ++ ys) name = (lastHeading ys name).or (lastHeading xs name) := by
  rw [lastHeading, List.reverse_append, List.find?_append, lastHeading, lastHeading]

theorem lastHeading_append_singleton (headings : List Heading) (heading : Heading)
    (name : String) :
    lastHeading (headings ++ [heading]) name =
      if heading.name? = some name then some heading else lastHeading headings name := by
  rw [lastHeading_append, lastHeading, List.reverse_singleton, List.find?_singleton]
  by_cases h : heading.name? = some name <;> simp [h]

theorem lastOf_append (name : String) (xs ys : List Occurrence) :
    lastOf name (xs ++ ys) = (lastOf name ys).or (lastOf name xs) := by
  rw [lastOf, List.reverse_append, List.find?_append, lastOf, lastOf]

theorem lastOf_append_singleton (name : String) (occurrences : List Occurrence)
    (occurrence : Occurrence) :
    lastOf name (occurrences ++ [occurrence]) =
      if occurrence.name = name then some occurrence else lastOf name occurrences := by
  rw [lastOf_append, lastOf, List.reverse_singleton, List.find?_singleton]
  by_cases h : occurrence.name = name <;> simp [h]

theorem Expanded.headingsOfAll_append (xs ys : List Expanded) :
    Expanded.headingsOfAll (xs ++ ys) =
      Expanded.headingsOfAll xs ++ Expanded.headingsOfAll ys := by
  induction xs with
  | nil => simp [Expanded.headingsOfAll]
  | cons x xs ih => simp [Expanded.headingsOfAll, ih]

theorem Expanded.occurrencesOfAll_append (before : List Heading) (xs ys : List Expanded) :
    Expanded.occurrencesOfAll before (xs ++ ys) = Expanded.occurrencesOfAll before xs ++
      Expanded.occurrencesOfAll (before ++ Expanded.headingsOfAll xs) ys := by
  induction xs generalizing before with
  | nil => simp [Expanded.headingsOfAll, Expanded.occurrencesOfAll]
  | cons x xs ih => simp [Expanded.headingsOfAll, Expanded.occurrencesOfAll, ih]

/-! ## Single steps -/

section Steps

variable {parent : Option Compiled} {below : List Level} {declared : Declarations}
  {started : List Heading} {completed : List Occurrence}

/-- A declaration has the name that it is looked up by. -/
theorem declaration_name {levels : List Level} {name : String} {occurrence : Occurrence}
    {deeper : List Level} (h : declaration levels name = some (occurrence, deeper)) :
    occurrence.name = name := by
  induction levels with
  | nil => cases h
  | cons level levels ih =>
      rw [declaration] at h
      split at h
      · rename_i found hfound
        cases h
        simpa using List.find?_some hfound
      · exact ih h

/-- What the heading of a named element needs is what its parent and the headings before it
give. -/
theorem namedHeading_sound (hparent : ParentReflects parent below)
    (hdeclared : declared.Reflects below started completed) {heading : Heading} {name : String}
    {offset : Nat} {tag : String} {attributes : AttributeList}
    (h : namedHeading parent declared heading name offset = .ok (tag, attributes)) :
    heading.tag.or ((writtenTag started name).or (tagFor below name)) = some tag ∧
      attributes = attributesOver (attributesFor below) name heading := by
  obtain ⟨htag, rfl⟩ := namedHeading_eq_ok h
  rw [hparent.tags, hdeclared.tags] at htag
  refine ⟨htag, ?_⟩
  unfold attributesOver
  cases heading.superCall? with
  | none => rfl
  | some call => exact congrArg (AttributeList.extend · heading.ownAttributes) (hparent.attributes _)

/-- The start of a named element adds its heading. -/
theorem Declarations.Reflects.announce (hdeclared : declared.Reflects below started completed)
    {heading : Heading} {name tag : String} (hname : heading.name? = some name)
    (htag : heading.tag.or ((writtenTag started name).or (tagFor below name)) = some tag) :
    (declared.announce name tag (attributesOver (attributesFor below) name heading)).Reflects
      below (started ++ [heading]) completed := by
  refine ⟨fun key => ?_, fun key => ?_, hdeclared.renderers⟩
  · rw [writtenTag_append_singleton, hname]
    by_cases hkey : key = name
    · subst hkey
      rw [if_pos rfl, Option.or_assoc, htag, Declarations.announce, Table.get?_insert_self]
      rfl
    · rw [if_neg (by simpa using Ne.symm hkey), Option.none_or, Declarations.announce,
        Table.get?_insert_of_ne _ _ hkey]
      exact hdeclared.tags key
  · rw [lastHeading_append_singleton, hname]
    by_cases hkey : key = name
    · subst hkey
      rw [if_pos rfl, Declarations.announce, Table.get?_insert_self]
      rfl
    · rw [if_neg (by simpa using Ne.symm hkey), Declarations.announce,
        Table.get?_insert_of_ne _ _ hkey]
      exact hdeclared.attributes key

/-- The end of an element or a region adds its occurrence. -/
theorem Declarations.Reflects.define (hdeclared : declared.Reflects below started completed)
    {occurrence : Occurrence} {renderer : Renderer}
    (hrenderer : occurrence.IsRenderedBy below renderer) :
    (declared.define occurrence.name renderer).Reflects below started
      (completed ++ [occurrence]) := by
  refine ⟨hdeclared.tags, hdeclared.attributes, fun key => ?_⟩
  rw [lastOf_append_singleton, Declarations.define]
  by_cases hkey : key = occurrence.name
  · rw [if_pos hkey.symm, hkey, Table.get?_insert_self]
    exact ⟨renderer, rfl, hrenderer⟩
  · rw [if_neg (Ne.symm hkey), Table.get?_insert_of_ne _ _ hkey]
    exact hdeclared.renderers key

/-- The renderer of an occurrence holds fragments that represent its children. -/
theorem Occurrence.IsRenderedBy.represents {occurrence : Occurrence} {renderer : Renderer}
    (h : occurrence.IsRenderedBy below renderer) :
    Represents below (some occurrence.name) occurrence.children renderer.content := by
  obtain ⟨content, hcontent, h⟩ := h
  split at h
  · rw [h]
    exact hcontent
  · obtain ⟨tag, -, h⟩ := h
    rw [h]
    exact hcontent

/-- A super call stands for the children of a declaration below. -/
theorem superContent_sound (hparent : ParentReflects parent below) {scope : Option String}
    {call : SuperCall} {content : List Fragment} (h : superContent parent scope call = .ok content) :
    Represents below scope [.superCall call.target] [.splice content] := by
  obtain ⟨compiled, around, renderer, rfl, rfl, hget, rfl⟩ := superContent_eq_ok h
  have hrenders := hparent.renderers (call.target.getD around)
  rw [Option.bind_some, hget] at hrenders
  cases hdecl : declaration below (call.target.getD around) with
  | none =>
      rw [hdecl] at hrenders
      cases hrenders
  | some found =>
      obtain ⟨occurrence, deeper⟩ := found
      rw [hdecl] at hrenders
      obtain ⟨r, hr, hrendered⟩ := hrenders
      cases hr
      refine .superCall (by cases call.target <;> rfl) hdecl ?_ .nil
      exact declaration_name hdecl ▸ hrendered.represents

end Steps

/-! ## Compilation -/

/-- A compilation of trees: its fragments represent them, and its declarations reflect what
has been reflected before and the trees. -/
structure CompiledTo (below : List Level) (scope : Option String) (started : List Heading)
    (completed : List Occurrence) (trees : List Expanded)
    (output : List Fragment × Declarations) : Prop where
  represents : Represents below scope trees output.1
  reflects : output.2.Reflects below (started ++ Expanded.headingsOfAll trees)
    (completed ++ Expanded.occurrencesOfAll started trees)

/-- What is compiled is right for the trees that it expands to, wherever it stands. -/
def SoundOn (below : List Level) (compiled : Option String → Declarations → Output)
    (expanded : Option (List Expanded)) : Prop :=
  ∀ {scope : Option String} {declared : Declarations} {output : List Fragment × Declarations}
    {started : List Heading} {completed : List Occurrence},
    declared.Reflects below started completed → compiled scope declared = .ok output →
    ∃ trees, expanded = some trees ∧ CompiledTo below scope started completed trees output

/-- A compiler is right for all nodes. -/
def Compiler.Sound (below : List Level) (compiler : Compiler)
    (expand : List Node → Option (List Expanded)) : Prop :=
  ∀ nodes, SoundOn below (fun scope declared => compiler scope declared nodes) (expand nodes)

section Compilation

variable {helpers : Table Helper} {parent : Option Compiled} {again : Compiler}
  {expand : List Node → Option (List Expanded)} {below : List Level} {scope : Option String}
  {declared : Declarations} {started : List Heading} {completed : List Occurrence}

theorem CompiledTo.nil (h : declared.Reflects below started completed) :
    CompiledTo below scope started completed [] ([], declared) := by
  refine ⟨.nil, ?_⟩
  simpa [Expanded.headingsOfAll, Expanded.occurrencesOfAll] using h

/-- Compilations one after the other are a compilation of all trees. -/
theorem CompiledTo.append {xs ys : List Expanded} {fs gs : List Fragment}
    {declared declared' : Declarations}
    (hx : CompiledTo below scope started completed xs (fs, declared))
    (hy : CompiledTo below scope (started ++ Expanded.headingsOfAll xs)
      (completed ++ Expanded.occurrencesOfAll started xs) ys (gs, declared')) :
    CompiledTo below scope started completed (xs ++ ys) (fs ++ gs, declared') := by
  refine ⟨hx.represents.append hy.represents, ?_⟩
  have hreflects := hy.reflects
  rw [Expanded.headingsOfAll_append, Expanded.occurrencesOfAll_append, ← List.append_assoc,
    ← List.append_assoc]
  exact hreflects

/-- A helper element is compiled to what its helper gives, or to a region of that. -/
theorem compileHelper_sound (hagain : Compiler.Sound below again expand)
    (hdeclared : declared.Reflects below started completed) {element : Element}
    {output : List Fragment × Declarations}
    (h : compileHelper helpers again scope declared element = .ok output) :
    ∃ trees, expandHelper helpers expand element = some trees ∧
      CompiledTo below scope started completed trees output := by
  obtain ⟨helper, hhelper, h⟩ := bind_eq_ok_iff.1 h
  obtain ⟨tag, htag, hget⟩ := requireHelper_eq_ok hhelper
  cases hname : element.name? with
  | none =>
      rw [hname] at h
      obtain ⟨trees, htrees, hcompiled⟩ := hagain _ hdeclared h
      refine ⟨trees, ?_, hcompiled⟩
      simp [expandHelper, htag, hget, htrees, hname]
  | some name =>
      rw [hname] at h
      obtain ⟨⟨content, declared'⟩, hcontent, h⟩ := bind_eq_ok_iff.1 h
      cases h
      obtain ⟨trees, htrees, hcompiled⟩ := hagain _ hdeclared hcontent
      refine ⟨[.region name trees], ?_, .region .nil, ?_⟩
      · simp [expandHelper, htag, hget, htrees, hname]
      · have hrendered : Occurrence.IsRenderedBy below ⟨name, none, started, trees⟩
            (.region content) := ⟨content, hcompiled.represents, rfl⟩
        have hreflects := hcompiled.reflects.define hrendered
        simpa [Expanded.headingsOfAll, Expanded.headings, Expanded.occurrencesOfAll,
          Expanded.occurrences] using hreflects

/-- A named element is compiled to a call, and is declared. -/
theorem CompiledTo.named {heading : Heading} {name tag : String} {hasBraces : Bool}
    {children : List Expanded} {content : List Fragment} {declared' : Declarations}
    (hname : heading.name? = some name)
    (htag : heading.tag.or ((writtenTag started name).or (tagFor below name)) = some tag)
    (hcontent : CompiledTo below (some name) (started ++ [heading]) completed children
      (content, declared')) :
    CompiledTo below scope started completed [.element heading hasBraces children]
      ([.element name], declared'.define name (.ofElement tag
        (attributesOver (attributesFor below) name heading) heading.names hasBraces content)) := by
  refine ⟨.named hname .nil, ?_⟩
  have hrendered : Occurrence.IsRenderedBy below
      ⟨name, some (heading, hasBraces), started, children⟩
      (.ofElement tag (attributesOver (attributesFor below) name heading) heading.names
        hasBraces content) := ⟨content, hcontent.represents, tag, htag, rfl⟩
  have hreflects := hcontent.reflects.define hrendered
  simpa [Expanded.headingsOfAll, Expanded.headings, Expanded.occurrencesOfAll,
    Expanded.occurrences, hname] using hreflects

/-- An element without a name is compiled to its own fragments. -/
theorem CompiledTo.unnamed {heading : Heading} {tag : String} {hasBraces : Bool}
    {children : List Expanded} {content : List Fragment} {declared' : Declarations}
    (hname : heading.name? = none) (htag : heading.tag = some tag)
    (hcontent : CompiledTo below scope started completed children (content, declared')) :
    CompiledTo below scope started completed [.element heading hasBraces children]
      ((Renderer.ofElement tag (AttributeList.empty.extend heading.ownAttributes)
        heading.names hasBraces content).fragments, declared') := by
  constructor
  · dsimp only
    rw [← List.append_nil (Renderer.fragments _)]
    exact .unnamed hname htag hcontent.represents .nil
  · have hreflects := hcontent.reflects
    simpa [Expanded.headingsOfAll, Expanded.headings, Expanded.occurrencesOfAll,
      Expanded.occurrences, hname] using hreflects

/-- An element is compiled to what is right for the tree that it expands to. -/
theorem compileElement_sound (hparent : ParentReflects parent below)
    (hagain : Compiler.Sound below again expand) {element : Element}
    (hchildren : SoundOn below
      (fun scope declared =>
        compileNodes helpers parent again scope declared (Node.element element).children)
      (expandNodes helpers expand (Node.element element).children)) :
    SoundOn below
      (fun scope declared => compileNode helpers parent again scope declared (.element element))
      (expandNode helpers expand (.element element)) := by
  intro scope declared output started completed hdeclared h
  simp only [compileNode_element] at h
  by_cases hhelper : element.heading.isHelper = true
  · rw [compileElement_helper hhelper] at h
    rw [expandNode_helper hhelper]
    exact compileHelper_sound hagain hdeclared h
  · rw [Bool.not_eq_true] at hhelper
    rw [expandNode_element hhelper]
    cases hname : element.heading.name? with
    | none =>
        rw [compileElement_unnamed hhelper hname] at h
        obtain ⟨⟨tag, attributes⟩, hheading, h⟩ := bind_eq_ok_iff.1 h
        obtain ⟨⟨content, declared'⟩, hcontent, h⟩ := bind_eq_ok_iff.1 h
        cases h
        obtain ⟨htag, rfl⟩ := unnamedHeading_eq_ok hheading
        rw [compileContent_eq_compileNodes] at hcontent
        obtain ⟨children, hexpand, hcompiled⟩ := hchildren hdeclared hcontent
        rw [hexpand]
        exact ⟨_, rfl, .unnamed hname htag hcompiled⟩
    | some name =>
        rw [compileElement_named hhelper hname] at h
        obtain ⟨⟨tag, attributes⟩, hheading, h⟩ := bind_eq_ok_iff.1 h
        obtain ⟨⟨content, declared'⟩, hcontent, h⟩ := bind_eq_ok_iff.1 h
        cases h
        obtain ⟨htag, rfl⟩ := namedHeading_sound hparent hdeclared hheading
        rw [compileContent_eq_compileNodes] at hcontent
        obtain ⟨children, hexpand, hcompiled⟩ :=
          hchildren (hdeclared.announce hname htag) hcontent
        rw [hexpand]
        exact ⟨_, rfl, .named hname htag hcompiled⟩

/-- A node and the nodes after it are compiled to what is right for all of them. -/
theorem SoundOn.cons {node : Node} {nodes : List Node}
    (hnode : SoundOn below
      (fun scope declared => compileNode helpers parent again scope declared node)
      (expandNode helpers expand node))
    (hnodes : SoundOn below
      (fun scope declared => compileNodes helpers parent again scope declared nodes)
      (expandNodes helpers expand nodes)) :
    SoundOn below
      (fun scope declared => compileNodes helpers parent again scope declared (node :: nodes))
      (expandNodes helpers expand (node :: nodes)) := by
  intro scope declared output started completed hdeclared h
  simp only [compileNodes_cons] at h
  obtain ⟨⟨first, declared'⟩, hfirst, h⟩ := bind_eq_ok_iff.1 h
  obtain ⟨⟨rest, declared''⟩, hrest, h⟩ := bind_eq_ok_iff.1 h
  cases h
  obtain ⟨xs, hxs, hcompiled⟩ := hnode hdeclared hfirst
  obtain ⟨ys, hys, hcompiled'⟩ := hnodes hcompiled.reflects hrest
  exact ⟨xs ++ ys, expandNodes_cons_eq_some.2 ⟨xs, ys, hxs, hys, rfl⟩,
    hcompiled.append hcompiled'⟩

/-- Nodes are compiled to what is right for them if the nodes of their helpers are. -/
theorem compileNodes_sound (hparent : ParentReflects parent below)
    (hagain : Compiler.Sound below again expand) :
    Compiler.Sound below (compileNodes helpers parent again) (expandNodes helpers expand) := by
  intro nodes
  induction nodes using Node.inductAll with
  | nil =>
      intro scope declared output started completed hdeclared h
      simp only [compileNodes_nil, Except.ok.injEq] at h
      subst h
      exact ⟨[], expandNodes_nil, .nil hdeclared⟩
  | element element nodes ihChildren ih =>
      exact SoundOn.cons (compileElement_sound hparent hagain ihChildren) ih
  | literal literal nodes ih =>
      refine SoundOn.cons ?_ ih
      intro scope declared output started completed hdeclared h
      simp only [compileNode_literal, Except.ok.injEq] at h
      subst h
      refine ⟨_, expandNode_literal literal, .text _ .nil, ?_⟩
      simpa [Expanded.headingsOfAll, Expanded.headings, Expanded.occurrencesOfAll,
        Expanded.occurrences] using hdeclared
  | comment comment nodes ih =>
      refine SoundOn.cons ?_ ih
      intro scope declared output started completed hdeclared h
      simp only [compileNode_comment, Except.ok.injEq] at h
      subst h
      exact ⟨_, expandNode_comment comment, .nil hdeclared⟩
  | superCall call nodes ih =>
      refine SoundOn.cons ?_ ih
      intro scope declared output started completed hdeclared h
      simp only [compileNode_superCall] at h
      obtain ⟨content, hcontent, h⟩ := bind_eq_ok_iff.1 h
      cases h
      refine ⟨_, expandNode_superCall call, superContent_sound hparent hcontent, ?_⟩
      simpa [Expanded.headingsOfAll, Expanded.headings, Expanded.occurrencesOfAll,
        Expanded.occurrences] using hdeclared

end Compilation

/-! ## Templates -/

/-- Compilation within a budget is right for what the same fuel expands. -/
theorem compileWithin_sound {helpers : Table Helper} {parent : Option Compiled}
    {below : List Level} (hparent : ParentReflects parent below) (budget : Nat) :
    Compiler.Sound below (compileWithin helpers parent budget) (expandWithin helpers budget) := by
  induction budget with
  | zero =>
      refine compileNodes_sound hparent ?_
      intro nodes scope declared output started completed _ h
      cases h
  | succ budget ih => exact compileNodes_sound hparent ih

/-- Declarations in front of the parent's tables reflect their level in front of the levels
below. -/
theorem Compiled.reflects_extend {parent : Option Compiled} {below : List Level}
    (hparent : ParentReflects parent below) {declared : Declarations} {level : Level}
    (hdeclared : declared.Reflects below (Expanded.headingsOfAll level)
      (Expanded.occurrencesOfAll [] level)) (root : List Fragment) :
    (Compiled.extend parent root declared).Reflects (level :: below) := by
  have htags : ∀ name, (Compiled.extend parent root declared).tags.get? name =
      (declared.tags.get? name).or (inheritedTag? parent name) := by
    intro name
    cases parent <;> exact Layers.get?_cons _ _ _
  have hattributes : ∀ name, (Compiled.extend parent root declared).attributes.get? name =
      (declared.attributes.get? name).or (parent.bind (·.attributes.get? name)) := by
    intro name
    cases parent <;> exact Layers.get?_cons _ _ _
  have hrenderers : ∀ name, (Compiled.extend parent root declared).renderers.get? name =
      (declared.renderers.get? name).or (parent.bind (·.renderers.get? name)) := by
    intro name
    cases parent <;> exact Layers.get?_cons _ _ _
  constructor
  · intro name
    rw [htags, hparent.tags, hdeclared.tags, tagFor]
  · intro name
    rw [hattributes, hdeclared.attributes, attributesFor]
    cases lastHeading (Expanded.headingsOfAll level) name with
    | some heading => rfl
    | none => exact hparent.attributes name
  · intro name
    have hown := hdeclared.renderers name
    rw [hrenderers, declaration]
    cases hlast : lastOf name (Expanded.occurrencesOfAll [] level) with
    | some occurrence =>
        rw [hlast] at hown
        obtain ⟨renderer, hget, hrendered⟩ := hown
        rw [hget]
        exact ⟨renderer, rfl, hrendered⟩
    | none =>
        rw [hlast] at hown
        have hnone : declared.renderers.get? name = none := hown
        rw [hnone, Option.none_or]
        exact hparent.renderers name

/-- A document that compiles is represented by its fragments, and the compiled template
reflects its level and those below. -/
theorem compile_sound {helpers : Table Helper} {parent : Option Compiled} {below : List Level}
    (hparent : ParentReflects parent below) {nodes : List Node} {compiled : Compiled}
    (h : compile helpers parent nodes = .ok compiled) :
    ∃ enough level root declared, (∀ fuel, enough ≤ fuel →
        expandWithin helpers fuel nodes = some level) ∧
      Represents below none level root ∧ compiled = .extend parent root declared ∧
      compiled.Reflects (level :: below) := by
  obtain ⟨⟨root, declared⟩, hcompiled, rfl⟩ := map_eq_ok_iff.1 h
  obtain ⟨level, hlevel, hto⟩ :=
    compileWithin_sound hparent _ nodes (Declarations.reflects_empty below) hcompiled
  refine ⟨_, level, root, declared, fun fuel hfuel => expandWithin_mono hfuel hlevel,
    hto.represents, rfl, ?_⟩
  exact Compiled.reflects_extend hparent (by simpa using hto.reflects) root

end BemMarkup.Template

import BemMarkup.Proofs.Compilation.Derivation
import BemMarkup.Proofs.Interpreter.Representation

/-!
# Where the three tables agree

The tag, the attributes and the renderer of a name are kept in three tables, each with its
own layers.  The renderer that is found is that of the name's declaration: of its occurrence
that is completed last, in the nearest level that has one.  The tag and the attributes that
are found are those of the element of the name that *starts* last.  A heading behind a
declaration would have an occurrence behind it, so the two can differ only by an element that
starts inside the declaration and has its name.

A region has neither tag nor attributes.  It hides the renderers before it and leaves the
other two tables as they are, so behind it an element of the same name is still found there.

## Main definitions

* `Lacks`: no element of a name is written in some content.
* `attributesFor?`: the attributes of a name in the given levels, if they have any.
* `Compiled.Continues`: what an element of a child template takes over for a name.

## Main results

* `endsIn_of_lastOf`: behind the last occurrence of a name, no element of the name starts.
* `exists_levels_of_compileChain`: the tables of a compiled chain, and for which names there
  are attributes.
* `lookups_agree`: where the tag and the attributes are those of the declaration.
-/

namespace BemMarkup.Template

open Document

/-! ## Content without elements of a name -/

section Lacks

variable {name : String} {trees : List Expanded}

/-- No element of the name is written in the content.  Regions do not count. -/
def Lacks (name : String) (trees : List Expanded) : Prop :=
  ∀ heading ∈ Expanded.headingsOfAll trees, heading.name? ≠ some name

theorem lastHeading_eq_none_iff {headings : List Heading} :
    lastHeading headings name = none ↔ ∀ heading ∈ headings, heading.name? ≠ some name := by
  simp [lastHeading, List.find?_eq_none]

theorem lacks_iff : Lacks name trees ↔ lastHeading (Expanded.headingsOfAll trees) name = none :=
  lastHeading_eq_none_iff.symm

/-- A name without headings has no tag. -/
theorem writtenTag_eq_none {headings : List Heading} (h : lastHeading headings name = none) :
    writtenTag headings name = none := by
  rw [lastHeading_eq_none_iff] at h
  rw [writtenTag, List.findSome?_eq_none_iff]
  intro heading hheading
  rw [if_neg (h heading (List.mem_reverse.1 hheading))]

theorem lacks_nil : Lacks name [] := by
  simp [Lacks, Expanded.headingsOfAll]

theorem lacks_text_cons {value : String} :
    Lacks name (.text value :: trees) ↔ Lacks name trees := by
  simp [Lacks, Expanded.headingsOfAll, Expanded.headings]

theorem lacks_superCall_cons {target : Option String} :
    Lacks name (.superCall target :: trees) ↔ Lacks name trees := by
  simp [Lacks, Expanded.headingsOfAll, Expanded.headings]

theorem lacks_element_cons {heading : Heading} {hasBraces : Bool} {children : List Expanded} :
    Lacks name (.element heading hasBraces children :: trees) ↔
      heading.name? ≠ some name ∧ Lacks name children ∧ Lacks name trees := by
  cases hname : heading.name? with
  | none => simp [Lacks, Expanded.headingsOfAll, Expanded.headings, hname, or_imp, forall_and]
  | some other =>
      simp [Lacks, Expanded.headingsOfAll, Expanded.headings, hname, or_imp, forall_and]

theorem lacks_region_cons {other : String} {children : List Expanded} :
    Lacks name (.region other children :: trees) ↔ Lacks name children ∧ Lacks name trees := by
  simp [Lacks, Expanded.headingsOfAll, Expanded.headings, or_imp, forall_and]

/-- A name without occurrences has no elements. -/
theorem lacks_of_lastOf :
    ∀ {before : List Heading}, lastOf name (Expanded.occurrencesOfAll before trees) = none →
      Lacks name trees := by
  induction trees using Expanded.inductAll with
  | nil => exact fun _ => lacks_nil
  | text value trees ih =>
      intro before h
      exact lacks_text_cons.2 (ih h)
  | superCall target trees ih =>
      intro before h
      exact lacks_superCall_cons.2 (ih h)
  | element heading hasBraces children trees ihChildren ih =>
      intro before h
      rw [Expanded.occurrencesOfAll, lastOf_append, Option.or_eq_none_iff] at h
      obtain ⟨hrest, hfirst⟩ := h
      rw [Expanded.occurrences] at hfirst
      cases hname : heading.name? with
      | none =>
          rw [hname] at hfirst
          exact lacks_element_cons.2 ⟨by simp [hname], ihChildren hfirst, ih hrest⟩
      | some other =>
          rw [hname] at hfirst
          dsimp only at hfirst
          rw [lastOf_append_singleton] at hfirst
          split at hfirst
          · cases hfirst
          · rename_i hne
            exact lacks_element_cons.2 ⟨by simpa [hname] using hne, ihChildren hfirst, ih hrest⟩
  | region other children trees ihChildren ih =>
      intro before h
      rw [Expanded.occurrencesOfAll, lastOf_append, Option.or_eq_none_iff] at h
      obtain ⟨hrest, hfirst⟩ := h
      rw [Expanded.occurrences, lastOf_append_singleton] at hfirst
      split at hfirst
      · cases hfirst
      · exact lacks_region_cons.2 ⟨ihChildren hfirst, ih hrest⟩

end Lacks

/-! ## Behind the last occurrence -/

section Occurrences

variable {name : String} {before headings : List Heading} {occurrence : Occurrence}

/-- The headings that have started where the content of an occurrence begins. -/
def Occurrence.opened (occurrence : Occurrence) : List Heading :=
  occurrence.before ++ (occurrence.tagged.map (·.1)).toList

/-- The headings end with those inside an occurrence, but for headings of other names. -/
structure EndsIn (name : String) (headings : List Heading) (occurrence : Occurrence) : Prop where
  named : ∀ heading hasBraces, occurrence.tagged = some (heading, hasBraces) →
    heading.name? = some name
  split : ∃ later, lastHeading later name = none ∧
    headings = occurrence.opened ++ Expanded.headingsOfAll occurrence.children ++ later

/-- No heading need follow. -/
theorem EndsIn.of_eq
    (h : headings = occurrence.opened ++ Expanded.headingsOfAll occurrence.children)
    (hnamed : ∀ heading hasBraces, occurrence.tagged = some (heading, hasBraces) →
      heading.name? = some name) : EndsIn name headings occurrence :=
  ⟨hnamed, [], rfl, by rw [List.append_nil, h]⟩

/-- Headings of other names may follow. -/
theorem EndsIn.append (h : EndsIn name headings occurrence) {more : List Heading}
    (hmore : lastHeading more name = none) : EndsIn name (headings ++ more) occurrence := by
  obtain ⟨hnamed, later, hlater, rfl⟩ := h
  refine ⟨hnamed, later ++ more, ?_, by simp only [List.append_assoc]⟩
  rw [lastHeading_append, hlater, hmore]
  rfl

/-- The last occurrence in content is that in its rest, or else that in its first tree. -/
theorem EndsIn.cons {tree : Expanded} {trees : List Expanded}
    (htree : ∀ {occurrence}, lastOf name (tree.occurrences before) = some occurrence →
      EndsIn name (before ++ tree.headings) occurrence)
    (htrees : ∀ {occurrence}, lastOf name
        (Expanded.occurrencesOfAll (before ++ tree.headings) trees) = some occurrence →
      EndsIn name (before ++ tree.headings ++ Expanded.headingsOfAll trees) occurrence)
    (h : lastOf name (Expanded.occurrencesOfAll before (tree :: trees)) = some occurrence) :
    EndsIn name (before ++ Expanded.headingsOfAll (tree :: trees)) occurrence := by
  rw [Expanded.occurrencesOfAll, lastOf_append, Option.or_eq_some_iff] at h
  rw [Expanded.headingsOfAll, ← List.append_assoc]
  obtain hrest | ⟨hrest, hfirst⟩ := h
  · exact htrees hrest
  · exact (htree hfirst).append (lacks_iff.1 (lacks_of_lastOf hrest))

/-- Behind the last occurrence of a name, no element of the name starts. -/
theorem endsIn_of_lastOf {trees : List Expanded} :
    ∀ {before : List Heading} {occurrence : Occurrence},
      lastOf name (Expanded.occurrencesOfAll before trees) = some occurrence →
        EndsIn name (before ++ Expanded.headingsOfAll trees) occurrence := by
  induction trees using Expanded.inductAll with
  | nil =>
      intro before occurrence h
      cases h
  | text value trees ih =>
      intro before occurrence h
      exact EndsIn.cons (by simp [Expanded.occurrences, lastOf]) ih h
  | superCall target trees ih =>
      intro before occurrence h
      exact EndsIn.cons (by simp [Expanded.occurrences, lastOf]) ih h
  | element heading hasBraces children trees ihChildren ih =>
      intro before occurrence h
      refine EndsIn.cons ?_ ih h
      intro found hfound
      rw [Expanded.occurrences] at hfound
      rw [Expanded.headings]
      cases hname : heading.name? with
      | none =>
          rw [hname] at hfound
          exact ihChildren hfound
      | some other =>
          rw [hname] at hfound
          dsimp only at hfound
          rw [lastOf_append_singleton] at hfound
          rw [Option.isSome_some, if_pos rfl, List.append_cons]
          split at hfound
          · rename_i hother
            cases hfound
            refine .of_eq rfl ?_
            intro _ _ htagged
            cases htagged
            exact hname.trans (congrArg some hother)
          · exact ihChildren hfound
  | region other children trees ihChildren ih =>
      intro before occurrence h
      refine EndsIn.cons ?_ ih h
      intro found hfound
      rw [Expanded.occurrences, lastOf_append_singleton] at hfound
      rw [Expanded.headings]
      split at hfound
      · cases hfound
        refine .of_eq (by simp [Occurrence.opened]) ?_
        intro _ _ htagged
        cases htagged
      · exact ihChildren hfound

variable {heading : Heading} {hasBraces : Bool}

/-- An element without elements of its name inside it has the last heading of the name. -/
theorem EndsIn.lastHeading_eq (h : EndsIn name headings occurrence)
    (htagged : occurrence.tagged = some (heading, hasBraces))
    (hinside : Lacks name occurrence.children) : lastHeading headings name = some heading := by
  obtain ⟨hnamed, later, hlater, rfl⟩ := h
  rw [lastHeading_append, hlater, Option.none_or, lastHeading_append, lacks_iff.1 hinside,
    Option.none_or, Occurrence.opened, htagged, Option.map_some, Option.toList_some,
    lastHeading_append_singleton, if_pos (hnamed heading hasBraces htagged)]

/-- Its tag is then the last one that is written, and otherwise the one before it. -/
theorem EndsIn.writtenTag_eq (h : EndsIn name headings occurrence)
    (htagged : occurrence.tagged = some (heading, hasBraces))
    (hinside : Lacks name occurrence.children) :
    writtenTag headings name = heading.tag.or (writtenTag occurrence.before name) := by
  obtain ⟨hnamed, later, hlater, rfl⟩ := h
  rw [writtenTag_append, writtenTag_eq_none hlater, Option.none_or, writtenTag_append,
    writtenTag_eq_none (lacks_iff.1 hinside), Option.none_or, Occurrence.opened, htagged,
    Option.map_some, Option.toList_some, writtenTag_append_singleton,
    if_pos (hnamed heading hasBraces htagged)]

end Occurrences

/-! ## Levels -/

section Levels

variable {name : String} {levels below : List Level} {occurrence : Occurrence}
  {heading : Heading} {hasBraces : Bool}

/-- The attributes that the elements of a name last had in the given levels, if there are
any such elements. -/
def attributesFor? : List Level → String → Option AttributeList
  | [], _ => none
  | level :: below, name =>
    ((lastHeading (Expanded.headingsOfAll level) name).map
      (attributesOver (attributesFor below) name)).or (attributesFor? below name)

/-- Attributes are found exactly for the names of elements. -/
theorem attributesFor?_eq_none_iff :
    attributesFor? levels name = none ↔ ∀ level ∈ levels, Lacks name level := by
  induction levels with
  | nil => simp [attributesFor?]
  | cons level levels ih =>
      rw [attributesFor?, Option.or_eq_none_iff, Option.map_eq_none_iff, ih, ← lacks_iff,
        List.forall_mem_cons]

/-- An element that a name stands for, with no element of the name inside it, gives the levels
their tag and their attributes.  Levels in front of its own have no element of the name, or
they would have the declaration. -/
theorem tables_of_declaration (h : declaration levels name = some (occurrence, below))
    (htagged : occurrence.tagged = some (heading, hasBraces))
    (hinside : Lacks name occurrence.children) :
    tagFor levels name = occurrence.tagOver below heading ∧
      attributesFor? levels name = some (attributesOver (attributesFor below) name heading) := by
  have hname := declaration_name h
  induction levels with
  | nil => cases h
  | cons level levels ih =>
      rw [declaration] at h
      rw [tagFor, attributesFor?]
      split at h
      · rename_i found hfound
        cases h
        have hends : EndsIn name (Expanded.headingsOfAll level) occurrence :=
          endsIn_of_lastOf hfound
        rw [hends.writtenTag_eq htagged hinside, hends.lastHeading_eq htagged hinside,
          Option.or_assoc, Occurrence.tagOver, hname]
        exact ⟨rfl, rfl⟩
      · rename_i hnone
        have hlacks := lacks_iff.1 (lacks_of_lastOf hnone)
        rw [writtenTag_eq_none hlacks, hlacks]
        exact ih h

end Levels

/-! ## Chains -/

section Chains

variable {helpers : Table Helper}

/-- The attributes in the tables of a template are those of its own headings, in front of
those of its parent. -/
theorem attributes_of_compile {parent : Option Compiled} {below : List Level}
    (hparent : ParentReflects parent below)
    (hattributes : ∀ name, parent.bind (·.attributes.get? name) = attributesFor? below name)
    {nodes : List Node} {compiled : Compiled} (h : compile helpers parent nodes = .ok compiled) :
    ∃ enough level, (∀ fuel, enough ≤ fuel → expandWithin helpers fuel nodes = some level) ∧
      compiled.Reflects (level :: below) ∧
      ∀ name, compiled.attributes.get? name = attributesFor? (level :: below) name := by
  obtain ⟨⟨root, declared⟩, hcompiled, rfl⟩ := map_eq_ok_iff.1 h
  obtain ⟨level, hlevel, hto⟩ :=
    compileWithin_sound hparent _ nodes (Declarations.reflects_empty below) hcompiled
  have hreflects : declared.Reflects below (Expanded.headingsOfAll level)
      (Expanded.occurrencesOfAll [] level) := by simpa using hto.reflects
  refine ⟨_, level, fun fuel hfuel => expandWithin_mono hfuel hlevel,
    Compiled.reflects_extend hparent hreflects root, fun name => ?_⟩
  rw [attributesFor?, ← hreflects.attributes, ← hattributes]
  cases parent <;> exact Layers.get?_cons _ _ _

/-- The documents of a chain expand to levels, with enough fuel, and the tables of the
compiled chain hold what these levels say. -/
theorem exists_levels_of_compileChain {documents : List (List Node)} {result : Option Compiled}
    (h : compileChain helpers documents = .ok result) :
    ∃ enough levels,
      (∀ fuel, enough ≤ fuel → documents.mapM (expandWithin helpers fuel) = some levels) ∧
      ParentReflects result levels.reverse ∧
      ∀ name, result.bind (·.attributes.get? name) = attributesFor? levels.reverse name := by
  refine compileChain_induct (motive := fun documents result => ∃ enough levels,
    (∀ fuel, enough ≤ fuel → documents.mapM (expandWithin helpers fuel) = some levels) ∧
    ParentReflects result levels.reverse ∧
    ∀ name, result.bind (·.attributes.get? name) = attributesFor? levels.reverse name)
    ?_ ?_ documents h
  · exact ⟨0, [], fun _ _ => rfl, .of_none, fun _ => rfl⟩
  · rintro documents parent nodes compiled - ⟨n, levels, hlevels, hparent, hattributes⟩ hcompile
    obtain ⟨m, level, hlevel, hreflects, hcompiled⟩ :=
      attributes_of_compile hparent hattributes hcompile
    refine ⟨max n m, levels ++ [level], fun fuel hfuel => ?_, ?_⟩
    · rw [List.mapM_append, hlevels fuel (by omega), List.mapM_cons, hlevel fuel (by omega)]
      rfl
    · rw [List.reverse_append, List.reverse_singleton, List.singleton_append]
      exact ⟨.of_some hreflects, hcompiled⟩

end Chains

/-! ## Agreement -/

/-- What an element of a child takes over for a name: the tag, if its own heading has none and
the child has none for the name before it, and the attributes, if its super call is for the
name. -/
structure Compiled.Continues (compiled : Compiled) (name tag : String)
    (attributes : AttributeList) : Prop where
  tag : ∀ declared heading offset, heading.tag = none → declared.tags.get? name = none →
    tagOf (some compiled) declared heading name offset = .ok tag
  attributes : ∀ heading other call, heading.superCall? = some call →
    call.target.getD other = name →
    inheritedAttributes (some compiled) heading other = .ok attributes

/-- What is in the tables of a template is continued by its children. -/
theorem Compiled.continues {compiled : Compiled} {name tag : String}
    {attributes : AttributeList} {renderer : Renderer}
    (htag : compiled.tags.get? name = some tag)
    (hattributes : compiled.attributes.get? name = some attributes)
    (hrenderer : compiled.renderers.get? name = some renderer) :
    compiled.Continues name tag attributes := by
  constructor
  · intro declared heading offset hnone hdeclared
    have hinherited : inheritedTag? (some compiled) name = some tag := htag
    rw [tagOf, hnone, hdeclared, hinherited]
    rfl
  · intro heading other call hcall htarget
    have hrequire : requireTarget compiled call other = .ok renderer := by
      unfold requireTarget
      dsimp only
      rw [htarget, hrenderer]
    rw [inheritedAttributes, hcall]
    refine bind_eq_ok_iff.2 ⟨compiled, rfl, bind_eq_ok_iff.2 ⟨renderer, hrequire, ?_⟩⟩
    rw [htarget, hattributes]
    rfl

/-- **The three tables agree on declarations.**  Let a chain compile, and let a name have a
renderer.  The name then has a declaration, which the renderer stands for.  If this is an
element with no element of the name inside it, then the tag and the attributes that are found
for the name are its own, the renderer opens with them, and a child continues them.  If it is
a region, then no attributes are found exactly if no document has an element of the name. -/
theorem lookups_agree {helpers : Table Helper} {documents : List (List Node)}
    {compiled : Compiled} (hcompile : compileChain helpers documents = .ok (some compiled)) :
    ∃ enough levels,
      (∀ fuel, enough ≤ fuel → documents.mapM (expandWithin helpers fuel) = some levels) ∧
      ∀ name renderer, compiled.renderers.get? name = some renderer →
        ∃ occurrence below, declaration levels.reverse name = some (occurrence, below) ∧
          occurrence.IsRenderedBy below renderer ∧
          (∀ heading hasBraces, occurrence.tagged = some (heading, hasBraces) →
            Lacks name occurrence.children →
            ∃ tag attributes, occurrence.tagOver below heading = some tag ∧
              attributesOver (attributesFor below) name heading = attributes ∧
              compiled.tags.get? name = some tag ∧
              compiled.attributes.get? name = some attributes ∧
              renderer.opening = openingTag tag attributes heading.names ∧
              compiled.Continues name tag attributes) ∧
          (occurrence.tagged = none →
            (compiled.attributes.get? name = none ↔ ∀ level ∈ levels, Lacks name level)) := by
  obtain ⟨enough, levels, hlevels, hreflects, hattributes⟩ :=
    exists_levels_of_compileChain hcompile
  refine ⟨enough, levels, hlevels, fun name renderer hrenderer => ?_⟩
  have hrenders := hreflects.renderers name
  have hattributes : compiled.attributes.get? name = attributesFor? levels.reverse name :=
    hattributes name
  rw [Option.bind_some, hrenderer] at hrenders
  cases hdeclaration : declaration levels.reverse name with
  | none =>
      rw [hdeclaration] at hrenders
      cases hrenders
  | some found =>
      obtain ⟨occurrence, below⟩ := found
      rw [hdeclaration] at hrenders
      obtain ⟨_, hfound, hrendered⟩ := hrenders
      cases hfound
      refine ⟨occurrence, below, rfl, hrendered, ?_, ?_⟩
      · intro heading hasBraces htagged hinside
        obtain ⟨htag, hown⟩ := tables_of_declaration hdeclaration htagged hinside
        obtain ⟨content, -, hparts⟩ := hrendered
        rw [htagged] at hparts
        obtain ⟨tag, htagOver, hopening⟩ := hparts
        have htagGet : compiled.tags.get? name = some tag :=
          (hreflects.tags name).trans (htag.trans htagOver)
        have hget := hattributes.trans hown
        refine ⟨tag, _, htagOver, rfl, htagGet, hget, ?_,
          Compiled.continues htagGet hget hrenderer⟩
        rw [hopening, declaration_name hdeclaration]
        rfl
      · intro _
        rw [hattributes, attributesFor?_eq_none_iff]
        simp only [List.mem_reverse]

/-! ### Chains in which names are written more than once -/

/-- An element with a name. -/
def namedElement (tag : Option String) (name : String) (attributes : Option AttributeGroup)
    (content : Option (List Node)) : Node :=
  .element ⟨⟨false, tag, some [some name], attributes⟩, content, ⟨0, ""⟩⟩

/-- A section with a name. -/
def namedSection (name : String) (content : List Node) : Node :=
  .element ⟨⟨true, some "section", some [some name], none⟩, some content, ⟨0, ""⟩⟩

/-- Attributes without places in a source. -/
def attributesOf (superCall? : Option SuperCall) (entries : List Attribute) :
    Option AttributeGroup :=
  some ⟨superCall?, entries, ⟨0, ""⟩⟩

/-- The call `super!`. -/
def plainSuper : SuperCall := ⟨none, ⟨0, ""⟩⟩

/-- The content of `div/card(a=1){span/title}`. -/
def card : List Node :=
  [namedElement "div" "card" (attributesOf none [⟨"a", "1"⟩])
    (some [namedElement "span" "title" none none])]

/-- The content of `/card(super!,b=2) @section/title{'T'}`. -/
def openCard : List Node :=
  [namedElement none "card" (attributesOf plainSuper [⟨"b", "2"⟩]) none,
    namedSection "title" [.literal ⟨"T", false, ⟨0, ""⟩⟩]]

theorem openCard_lookups_agree :
    ∃ compiled,
      compileChain Registry.initial.helpers [card, openCard] = .ok (some compiled) ∧
        (∃ renderer, compiled.renderers.get? "card" = some renderer ∧
          renderer.opening =
            openingTag "div" ⟨[⟨"a", "1"⟩, ⟨"b", "2"⟩]⟩ (some [some "card"])) ∧
        compiled.Continues "card" "div" ⟨[⟨"a", "1"⟩, ⟨"b", "2"⟩]⟩ ∧
        compiled.attributes.get? "title" ≠ none := by
  obtain ⟨compiled, outer, inner, hcompile, houter, hinner⟩ : ∃ compiled outer inner,
      compileChain Registry.initial.helpers [card, openCard] = .ok (some compiled) ∧
        compiled.renderers.get? "card" = some outer ∧
        compiled.renderers.get? "title" = some inner := ⟨_, _, _, rfl, rfl, rfl⟩
  obtain ⟨enough, levels, hlevels, hagree⟩ := lookups_agree hcompile
  obtain rfl := Option.some.inj (hlevels (enough + 2) (by omega))
  obtain ⟨_, _, hcard, -, helement, -⟩ := hagree "card" outer houter
  cases hcard
  obtain ⟨tag, attributes, htag, hattributes, -, -, hopening, hcontinues⟩ :=
    helement _ _ rfl lacks_nil
  cases htag
  cases hattributes
  obtain ⟨_, _, htitle, -, -, hregion⟩ := hagree "title" inner hinner
  cases htitle
  refine ⟨compiled, hcompile, ⟨outer, houter, hopening⟩, hcontinues, ?_⟩
  rw [Ne, hregion rfl]
  intro hlacks
  -- the element of this name stands inside `card`, in the second level
  have hcard := hlacks _ List.mem_cons_self
  have hinside := (lacks_element_cons.1 hcard).2.1
  exact (lacks_element_cons.1 hinside).1 rfl

/-- The content of `div/x(a=1){div/y{span/x}} div/y`. -/
def nameInside : List Node :=
  [namedElement "div" "x" (attributesOf none [⟨"a", "1"⟩])
      (some [namedElement "div" "y" none (some [namedElement "span" "x" none none])]),
    namedElement "div" "y" none none]

/-- The content of `div/x(a=1) @section/x{'r'}`. -/
def nameOfRegion : List Node :=
  [namedElement "div" "x" (attributesOf none [⟨"a", "1"⟩]) none,
    namedSection "x" [.literal ⟨"r", false, ⟨0, ""⟩⟩]]

/-- The tables do not always agree.  An element inside another one of its name takes the tag
and the attributes from it, for lookups and for the elements of a child; a region leaves the
attributes of an element that it replaces; and the second element of a name in a child has
the tag of the first one, and not that of the parent. -/
theorem lookups_can_disagree :
    (∃ compiled renderer,
      compileChain Registry.initial.helpers [nameInside] = .ok (some compiled) ∧
        compiled.renderers.get? "x" = some renderer ∧
        renderer.opening = openingTag "div" ⟨[⟨"a", "1"⟩]⟩ (some [some "x"]) ∧
        compiled.tags.get? "x" = some "span" ∧ compiled.attributes.get? "x" = some .empty ∧
        renderer.opening ≠ openingTag "span" .empty (some [some "x"]) ∧
        namedHeading (some compiled) .empty
            ⟨false, none, some [some "x"], attributesOf plainSuper []⟩ "x" 0 =
          .ok ("span", .empty)) ∧
    (∃ compiled,
      compileChain Registry.initial.helpers [nameOfRegion] = .ok (some compiled) ∧
        compiled.renderers.get? "x" = some (.region [.text "r"]) ∧
        compiled.attributes.get? "x" = some ⟨[⟨"a", "1"⟩]⟩) ∧
    ∃ parent compiled,
      compileChain Registry.initial.helpers [[namedElement "div" "x" none none]] =
          .ok (some parent) ∧
        compileChain Registry.initial.helpers [[namedElement "div" "x" none none],
            [namedElement "span" "x" none none, namedElement none "x" none none]] =
          .ok (some compiled) ∧
        parent.tags.get? "x" = some "div" ∧ compiled.tags.get? "x" = some "span" := by
  refine ⟨⟨_, _, rfl, rfl, rfl, rfl, rfl, ?_, rfl⟩, ⟨_, rfl, rfl, rfl⟩, _, _, rfl, rfl, rfl, rfl⟩
  change openingTag "div" _ _ ≠ _
  simp [openingTag]

end BemMarkup.Template

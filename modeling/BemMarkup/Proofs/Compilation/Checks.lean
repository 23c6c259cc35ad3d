import BemMarkup.Proofs.Document.Naming
import BemMarkup.Template.Compilation

/-!
# The first mistake of a document

Compiling stops at the first mistake, and what counts as one depends on what has been declared
before.  This module says what a mistake is without compiling anything.  A document is gone over
in the order of its text, each node before what is inside it, and every node has a list of
*checks*.  A check looks at the node, at the innermost name around it, at the nodes before it and
at the parent, and at nothing else.  The first check that is not passed is the mistake of the
document.

Of all that is declared in a document, later checks ask for the tags only, and there only whether
a name has one.  This is the invariant that joins compiling and checking: the names with a tag are
those of the elements that have started before (`Declarations.Tags`).

A section is replaced by its own content, so its children are checked like those of any other
element.  Helpers that compute their nodes are left out here, since what they give stands nowhere
in the document.

## Main definitions

* `Site`, `sites`: the nodes of a document in order, each with the innermost name around it.
* `Site.checks`: the checks of a node.
* `Site.mistake?`: the first check of a node that is not passed.
* `Answers`: an output that reports the first mistake and keeps the invariant.
* `OnlySections`: a document whose helper elements are sections, or have no helper.

## Main results

* `answers_compileNodes`: nodes are compiled unless one of them has a mistake.
* `compile_first_mistake`: compiling succeeds exactly if all checks are passed, and otherwise
  fails with the first that is not.
-/

namespace BemMarkup.Template

open Document

/-! ## Sites -/

/-- A node of a document. -/
structure Site where
  /-- The node. -/
  node : Node
  /-- The name of the innermost named element or region around it. -/
  around : Option String

mutual

/-- A node and all that is inside it, an element before what it contains. -/
def sitesOf (around : Option String) : Node → List Site
  | .element ⟨heading, content, span⟩ =>
    ⟨.element ⟨heading, content, span⟩, around⟩ ::
      match content with
      | none => []
      | some nodes => sites (heading.name?.or around) nodes
  | .literal literal => [⟨.literal literal, around⟩]
  | .comment comment => [⟨.comment comment, around⟩]
  | .superCall call => [⟨.superCall call, around⟩]

/-- The nodes of a list and all that is inside them, in the order of the document. -/
def sites (around : Option String) : List Node → List Site
  | [] => []
  | node :: nodes => sitesOf around node ++ sites around nodes

end

/-- The name of an element that enters a tag.  Regions have none. -/
def Site.taggedName? (site : Site) : Option String :=
  match site.node with
  | .element element => if element.heading.isHelper then none else element.heading.name?
  | .literal _ | .comment _ | .superCall _ => none

/-- Whether an element of the name starts at one of the sites. -/
def startsIn (name : String) (earlier : List Site) : Bool :=
  earlier.any fun site => site.taggedName? == some name

/-! ## Checks -/

/-- Something that is required at a place of a document. -/
structure Check where
  /-- Whether it is there. -/
  passed : Bool
  /-- What is wrong if it is not. -/
  kind : CompileErrorKind
  /-- The place. -/
  offset : Nat

/-- The mistake of the first check that is not passed. -/
def firstMistake : List Check → Option CompileError
  | [] => none
  | check :: checks =>
    if check.passed then firstMistake checks else some ⟨check.kind, some check.offset⟩

section Checks

variable (parent : Option Compiled) (earlier : List Site)

/-- The parent has a renderer for the name. -/
def inherits (name : String) : Bool := (parent.bind (·.renderers.get? name)).isSome

/-- A helper element names its helper, and this is `section`. -/
def helperChecks (heading : Heading) (offset : Nat) : List Check :=
  match heading.tag with
  | none => [⟨false, .missingHelperName, offset⟩]
  | some tag => [⟨tag == "section", .unknownHelper tag, offset⟩]

/-- An element without a name has a tag, and before that no super call: it would need a parent
and could not be used even then. -/
def unnamedChecks (heading : Heading) (offset : Nat) : List Check :=
  (match heading.superCall? with
    | none => []
    | some call =>
      [⟨parent.isSome, .superCallWithoutParent, call.span.offset⟩,
        ⟨false, .superCallOutsideElement, call.span.offset⟩]) ++
    [⟨heading.tag.isSome, .missingTagName none, offset⟩]

/-- An element with a name has a tag, or its name has got one before, in the document or in an
ancestor.  If it has a super call, there is a parent, and the parent has a renderer for the
element that is referred to. -/
def namedChecks (heading : Heading) (name : String) (offset : Nat) : List Check :=
  ⟨heading.tag.isSome || startsIn name earlier || (inheritedTag? parent name).isSome,
      .missingTagName (some name), offset⟩ ::
    match heading.superCall? with
    | none => []
    | some call =>
      [⟨parent.isSome, .superCallWithoutParent, call.span.offset⟩,
        ⟨inherits parent (call.target.getD name),
          .unknownSuperTarget (call.target.getD name), call.span.offset⟩]

/-- A super call between braces has a parent, a name around it, and a target for which the parent
has a renderer. -/
def superCallChecks (around : Option String) (call : SuperCall) : List Check :=
  ⟨parent.isSome, .superCallWithoutParent, call.span.offset⟩ ::
    match around with
    | none => [⟨false, .superCallOutsideElement, call.span.offset⟩]
    | some name =>
      [⟨inherits parent (call.target.getD name),
        .unknownSuperTarget (call.target.getD name), call.span.offset⟩]

/-- The checks of a node, in the order in which they are made. -/
def Site.checks (site : Site) : List Check :=
  match site.node with
  | .element element =>
    if element.heading.isHelper then helperChecks element.heading element.span.offset
    else
      match element.heading.name? with
      | some name => namedChecks parent earlier element.heading name element.span.offset
      | none => unnamedChecks parent element.heading element.span.offset
  | .literal _ | .comment _ => []
  | .superCall call => superCallChecks parent site.around call

/-- What is wrong with a node, if anything is. -/
def Site.mistake? (site : Site) : Option CompileError := firstMistake (site.checks parent earlier)

end Checks

/-- The first mistake in `later`, behind the nodes in `earlier`. -/
def mistakeIn (parent : Option Compiled) : (earlier later : List Site) → Option CompileError
  | _, [] => none
  | earlier, site :: later =>
    (site.mistake? parent earlier).or (mistakeIn parent (earlier ++ [site]) later)

/-! ## Rules of checking -/

section Rules

variable {parent : Option Compiled} {earlier : List Site}

theorem firstMistake_append (xs ys : List Check) :
    firstMistake (xs ++ ys) = (firstMistake xs).or (firstMistake ys) := by
  induction xs with
  | nil => rfl
  | cons x xs ih =>
      rw [List.cons_append, firstMistake, firstMistake, ih]
      by_cases h : x.passed = true
      · rw [if_pos h, if_pos h]
      · rw [if_neg h, if_neg h, Option.some_or]

theorem sitesOf_element (around : Option String) (element : Element) :
    sitesOf around (.element element) = ⟨.element element, around⟩ ::
      sites (element.heading.name?.or around) (Node.element element).children := by
  obtain ⟨heading, content, span⟩ := element
  cases content with
  | none => rw [sitesOf, Node.children, Option.getD_none, sites]
  | some nodes => rw [sitesOf, Node.children, Option.getD_some]

theorem mistakeIn_append (xs ys : List Site) :
    mistakeIn parent earlier (xs ++ ys) =
      (mistakeIn parent earlier xs).or (mistakeIn parent (earlier ++ xs) ys) := by
  induction xs generalizing earlier with
  | nil => simp [mistakeIn]
  | cons x xs ih =>
      rw [List.cons_append, mistakeIn, mistakeIn, ih, Option.or_assoc, List.append_assoc,
        List.singleton_append]

/-- There is no mistake exactly if every node is without one behind those before it. -/
theorem mistakeIn_eq_none_iff {later : List Site} :
    mistakeIn parent earlier later = none ↔ ∀ front site back, later = front ++ site :: back →
      site.mistake? parent (earlier ++ front) = none := by
  constructor
  · rintro h front site back rfl
    rw [mistakeIn_append, Option.or_eq_none_iff, mistakeIn, Option.or_eq_none_iff] at h
    exact h.2.1
  · intro h
    induction later generalizing earlier with
    | nil => rfl
    | cons site later ih =>
        rw [mistakeIn, Option.or_eq_none_iff]
        constructor
        · simpa using h [] site later rfl
        · apply ih
          intro front other back hlater
          have hother := h (site :: front) other back (by rw [hlater]; rfl)
          rwa [List.append_cons] at hother

/-- A mistake is that of some node, and no node before it has one. -/
theorem mistakeIn_eq_some_iff {later : List Site} {error : CompileError} :
    mistakeIn parent earlier later = some error ↔ ∃ front site back,
      later = front ++ site :: back ∧ mistakeIn parent earlier front = none ∧
        site.mistake? parent (earlier ++ front) = some error := by
  constructor
  · intro h
    induction later generalizing earlier with
    | nil => cases h
    | cons site later ih =>
        rw [mistakeIn, Option.or_eq_some_iff] at h
        obtain h | ⟨hsite, h⟩ := h
        · exact ⟨[], site, later, rfl, rfl, by simpa using h⟩
        · obtain ⟨front, other, back, rfl, hfront, hother⟩ := ih h
          refine ⟨site :: front, other, back, rfl, ?_, ?_⟩
          · rw [mistakeIn, hsite, Option.none_or, hfront]
          · rwa [List.append_cons]
  · rintro ⟨front, site, back, rfl, hfront, hsite⟩
    rw [mistakeIn_append, hfront, Option.none_or, mistakeIn, hsite, Option.some_or]

end Rules

/-! ## Steps of compilation -/

/-- A step succeeds where there is no mistake, and otherwise fails with it. -/
inductive Reports {α : Type} : Option CompileError → Except Stop α → Prop
  /-- There is no mistake. -/
  | success (value : α) : Reports none (.ok value)
  /-- There is a mistake. -/
  | failure (error : CompileError) : Reports (some error) (.error (.fault error))

section Steps

variable {α β : Type} {mistake mistake' : Option CompileError} {x : Except Stop α}

/-- The first mistake of two steps in a row is that of the first, or else that of the second. -/
theorem Reports.bind {f : α → Except Stop β} (h : Reports mistake x)
    (hf : ∀ value, x = .ok value → Reports mistake' (f value)) :
    Reports (mistake.or mistake') (x >>= f) := by
  cases h with
  | success value => exact hf value rfl
  | failure error => exact .failure error

/-- A step without mistakes of its own leaves those of the step before it. -/
theorem Reports.andThen {f : α → Except Stop β} (h : Reports mistake x)
    (hf : ∀ value, ∃ result, f value = .ok result) : Reports mistake (x >>= f) := by
  rw [← mistake.or_none]
  apply h.bind
  intro value _
  obtain ⟨result, hresult⟩ := hf value
  rw [hresult]
  exact .success result

theorem Reports.map {f : α → β} (h : Reports mistake x) : Reports mistake (x.map f) := by
  cases h with
  | success value => exact .success (f value)
  | failure error => exact .failure error

theorem Reports.eq_none_iff (h : Reports mistake x) :
    mistake = none ↔ ∃ value, x = .ok value := by
  cases h with
  | success value => simp
  | failure error => simp

theorem Reports.eq_some_iff (h : Reports mistake x) {error : CompileError} :
    mistake = some error ↔ x = .error (.fault error) := by
  cases h with
  | success value => simp
  | failure other => simp

theorem Reports.ne_unfinished (h : Reports mistake x) : x ≠ .error .unfinished := by
  cases h <;> simp

variable {parent : Option Compiled}

theorem reports_requireParent (call : SuperCall) :
    Reports (firstMistake [⟨parent.isSome, .superCallWithoutParent, call.span.offset⟩])
      (requireParent parent call) := by
  cases parent with
  | none => exact .failure _
  | some compiled => exact .success compiled

theorem reports_requireTarget (compiled : Compiled) (call : SuperCall) (around : String) :
    Reports (firstMistake [⟨inherits (some compiled) (call.target.getD around),
        .unknownSuperTarget (call.target.getD around), call.span.offset⟩])
      (requireTarget compiled call around) := by
  unfold requireTarget inherits
  dsimp only [Option.bind_some]
  cases compiled.renderers.get? (call.target.getD around) with
  | none => exact .failure _
  | some renderer => exact .success renderer

/-- A super call is checked for a parent first and for its target then, and what is done with
the target cannot fail. -/
theorem reports_target {f : Compiled → Renderer → β} (call : SuperCall) (around : String) :
    Reports (firstMistake [⟨parent.isSome, .superCallWithoutParent, call.span.offset⟩,
        ⟨inherits parent (call.target.getD around),
          .unknownSuperTarget (call.target.getD around), call.span.offset⟩])
      (do
        let compiled ← requireParent parent call
        let renderer ← requireTarget compiled call around
        return f compiled renderer) := by
  change Reports (firstMistake ([_] ++ [_])) _
  rw [firstMistake_append]
  apply (reports_requireParent call).bind
  intro compiled hcompiled
  obtain rfl := requireParent_eq_ok hcompiled
  exact (reports_requireTarget compiled call around).andThen fun renderer => ⟨_, rfl⟩

end Steps

/-! ## Nodes without children -/

section Headings

variable {parent : Option Compiled} {earlier : List Site} {declared : Declarations}

/-- The names that have a tag of the document itself are those of the elements that have
started. -/
def Declarations.Tags (declared : Declarations) (earlier : List Site) : Prop :=
  ∀ name, (declared.tags.get? name).isSome = startsIn name earlier

theorem reports_tagOf (hdeclared : declared.Tags earlier) (heading : Heading) (name : String)
    (offset : Nat) :
    Reports (firstMistake [⟨heading.tag.isSome || startsIn name earlier ||
        (inheritedTag? parent name).isSome, .missingTagName (some name), offset⟩])
      (tagOf parent declared heading name offset) := by
  have hpassed :
      (heading.tag.or ((declared.tags.get? name).or (inheritedTag? parent name))).isSome =
      (heading.tag.isSome || startsIn name earlier || (inheritedTag? parent name).isSome) := by
    rw [Option.isSome_or, Option.isSome_or, hdeclared name, Bool.or_assoc]
  rw [← hpassed]
  unfold tagOf
  cases heading.tag.or ((declared.tags.get? name).or (inheritedTag? parent name)) with
  | none => exact .failure _
  | some tag => exact .success tag

theorem reports_inheritedAttributes (heading : Heading) (name : String) :
    Reports (firstMistake (match heading.superCall? with
        | none => []
        | some call =>
          [⟨parent.isSome, .superCallWithoutParent, call.span.offset⟩,
            ⟨inherits parent (call.target.getD name),
              .unknownSuperTarget (call.target.getD name), call.span.offset⟩]))
      (inheritedAttributes parent heading name) := by
  unfold inheritedAttributes
  cases heading.superCall? with
  | none => exact .success _
  | some call => exact reports_target call name

/-- The heading of a named element is compiled unless one of its checks is not passed. -/
theorem reports_namedHeading (hdeclared : declared.Tags earlier) (heading : Heading)
    (name : String) (offset : Nat) :
    Reports (firstMistake (namedChecks parent earlier heading name offset))
      (namedHeading parent declared heading name offset) := by
  rw [namedChecks, ← List.singleton_append, firstMistake_append]
  apply (reports_tagOf hdeclared heading name offset).bind
  intro tag _
  exact (reports_inheritedAttributes heading name).andThen fun attributes => ⟨_, rfl⟩

/-- So is the heading of an element without a name. -/
theorem reports_unnamedHeading (heading : Heading) (offset : Nat) :
    Reports (firstMistake (unnamedChecks parent heading offset))
      (unnamedHeading parent heading offset) := by
  unfold unnamedChecks unnamedHeading
  cases heading.superCall? with
  | none =>
      cases heading.tag with
      | none => exact .failure _
      | some tag => exact .success _
  | some call =>
      cases parent with
      | none => exact .failure _
      | some compiled => exact .failure _

/-- So is a super call between braces. -/
theorem reports_superContent (around : Option String) (call : SuperCall) :
    Reports (firstMistake (superCallChecks parent around call))
      (superContent parent around call) := by
  unfold superCallChecks superContent
  cases around with
  | none =>
      cases parent with
      | none => exact .failure _
      | some compiled => exact .failure _
  | some name => exact reports_target call name

/-- Where `section` is the only helper that a document knows, a helper element that passes its
checks is a section. -/
theorem reports_requireHelper {helpers : Table Helper} {element : Element}
    (hknown : ∀ tag, element.heading.tag = some tag →
      helpers.get? tag = if tag = "section" then some .content else none) :
    Reports (firstMistake (helperChecks element.heading element.span.offset))
        (requireHelper helpers element) ∧
      ∀ helper, requireHelper helpers element = .ok helper → helper = .content := by
  unfold helperChecks requireHelper
  cases htag : element.heading.tag with
  | none => exact ⟨.failure _, by simp⟩
  | some tag =>
      dsimp only
      rw [hknown tag htag]
      by_cases hname : tag = "section"
      · rw [if_pos hname, hname]
        exact ⟨.success _, by simp⟩
      · rw [if_neg hname, beq_eq_false_iff_ne.2 hname]
        exact ⟨.failure _, by simp⟩

end Headings

/-! ## The tags of a document -/

section Tags

variable {declared : Declarations} {earlier : List Site} {site : Site}

theorem startsIn_append (name : String) (xs ys : List Site) :
    startsIn name (xs ++ ys) = (startsIn name xs || startsIn name ys) := List.any_append

theorem Declarations.tags_empty : Declarations.empty.Tags [] := by
  intro name
  show (Table.empty.get? name : Option String).isSome = false
  rw [Table.get?_empty]
  rfl

/-- A node that enters no tag changes nothing. -/
theorem Declarations.Tags.skip (h : declared.Tags earlier) (hsite : site.taggedName? = none) :
    declared.Tags (earlier ++ [site]) := by
  intro name
  have hstarts : startsIn name [site] = false := by simp [startsIn, hsite]
  rw [startsIn_append, hstarts, Bool.or_false]
  exact h name

/-- An element with a name enters its tag as soon as it starts. -/
theorem Declarations.Tags.announce (h : declared.Tags earlier) {name : String}
    (hsite : site.taggedName? = some name) (tag : String) (attributes : AttributeList) :
    (declared.announce name tag attributes).Tags (earlier ++ [site]) := by
  intro other
  show ((declared.tags.insert name tag).get? other).isSome = _
  by_cases hother : other = name
  · have hstarts : startsIn other [site] = true := by simp [startsIn, hsite, hother]
    rw [startsIn_append, hstarts, Bool.or_true, hother, Table.get?_insert_self, Option.isSome_some]
  · have hstarts : startsIn other [site] = false := by simp [startsIn, hsite, Ne.symm hother]
    rw [startsIn_append, hstarts, Bool.or_false, Table.get?_insert_of_ne _ _ hother]
    exact h other

end Tags

/-! ## Nodes -/

/-- The output for the nodes at the sites `later`: it reports the first mistake among them, and
the tags after it are those of all elements that have started. -/
structure Answers (parent : Option Compiled) (earlier later : List Site) (output : Output) :
    Prop where
  /-- The first mistake is reported. -/
  reports : Reports (mistakeIn parent earlier later) output
  /-- The tags are those of the elements so far. -/
  tags : ∀ fragments after, output = .ok (fragments, after) → after.Tags (earlier ++ later)

section Answers

variable {parent : Option Compiled} {earlier xs ys : List Site} {output : Output}

/-- Nodes that are gone over in two parts. -/
theorem Answers.bind {next : List Fragment × Declarations → Output}
    (h : Answers parent earlier xs output)
    (hnext : ∀ fragments after, after.Tags (earlier ++ xs) →
      Answers parent (earlier ++ xs) ys (next (fragments, after))) :
    Answers parent earlier (xs ++ ys) (output >>= next) := by
  constructor
  · rw [mistakeIn_append]
    apply h.reports.bind
    rintro ⟨fragments, after⟩ houtput
    exact (hnext fragments after (h.tags fragments after houtput)).reports
  · intro rest last hlast
    obtain ⟨⟨fragments, after⟩, houtput, hrest⟩ := bind_eq_ok_iff.1 hlast
    rw [← List.append_assoc]
    exact (hnext fragments after (h.tags fragments after houtput)).tags rest last hrest

/-- What is only done to the fragments, or to the renderers, cannot be seen by a check. -/
theorem Answers.andThen {next : List Fragment × Declarations → Output}
    (h : Answers parent earlier xs output)
    (hnext : ∀ fragments after, ∃ result last,
      next (fragments, after) = .ok (result, last) ∧ last.tags = after.tags) :
    Answers parent earlier xs (output >>= next) := by
  rw [← xs.append_nil]
  apply h.bind
  intro fragments after hafter
  obtain ⟨result, last, hresult, htags⟩ := hnext fragments after
  rw [hresult]
  constructor
  · exact .success _
  · intro _ _ hlast
    cases hlast
    rw [List.append_nil]
    intro name
    rw [htags]
    exact hafter name

/-- A node is checked before what is inside it. -/
theorem Answers.cons {α : Type} {site : Site} {heading : Except Stop α} {next : α → Output}
    (hsite : Reports (site.mistake? parent earlier) heading)
    (hnext : ∀ value, heading = .ok value →
      Answers parent (earlier ++ [site]) xs (next value)) :
    Answers parent earlier (site :: xs) (heading >>= next) := by
  constructor
  · rw [mistakeIn]
    apply hsite.bind
    intro value hvalue
    exact (hnext value hvalue).reports
  · intro rest last hlast
    obtain ⟨value, hvalue, hrest⟩ := bind_eq_ok_iff.1 hlast
    rw [List.append_cons]
    exact (hnext value hvalue).tags rest last hrest

theorem answers_nil {declared : Declarations} (h : declared.Tags earlier)
    (fragments : List Fragment) : Answers parent earlier [] (.ok (fragments, declared)) := by
  constructor
  · exact .success _
  · intro _ _ houtput
    cases houtput
    rwa [List.append_nil]

/-- A node that enters no tag and has nothing inside. -/
theorem answers_leaf {α : Type} {site : Site} {declared : Declarations} {heading : Except Stop α}
    (h : declared.Tags earlier) (hsite : site.taggedName? = none)
    (hheading : Reports (site.mistake? parent earlier) heading) (f : α → List Fragment) :
    Answers parent earlier [site] (heading >>= fun value => .ok (f value, declared)) := by
  apply Answers.cons hheading
  intro value _
  exact answers_nil (h.skip hsite) (f value)

end Answers

/-- Every helper element of a document is a section, or its helper is not known. -/
def OnlySections (helpers : Table Helper) : List Node → Prop :=
  Everywhere fun node => ∀ element tag, node = .element element →
    element.heading.isHelper = true → element.heading.tag = some tag →
      helpers.get? tag = if tag = "section" then some .content else none

/-- A compiler that reports the first mistake in documents that nest less deep than `depth`. -/
def AnswersBelow (helpers : Table Helper) (parent : Option Compiled) (depth : Nat)
    (compiler : Compiler) : Prop :=
  ∀ nodes, Node.depthOfAll nodes < depth → OnlySections helpers nodes →
    ∀ scope earlier declared, declared.Tags earlier →
      Answers parent earlier (sites scope nodes) (compiler scope declared nodes)

section Nodes

variable {helpers : Table Helper} {parent : Option Compiled} {again : Compiler} {depth : Nat}
  {scope : Option String} {earlier : List Site} {declared : Declarations} {element : Element}

theorem depth_element (element : Element) :
    (Node.element element).depth = Node.depthOfAll (Node.element element).children + 1 := by
  obtain ⟨heading, content, span⟩ := element
  cases content with
  | none => rfl
  | some nodes => rw [Node.depth, Node.children, Option.getD_some]

/-- A section is checked, and then its children are checked in its place. -/
theorem answers_helper (hagain : AnswersBelow helpers parent depth again)
    (hhelper : element.heading.isHelper = true)
    (hdepth : Node.depthOfAll (Node.element element).children < depth)
    (hknown : ∀ tag, element.heading.tag = some tag →
      helpers.get? tag = if tag = "section" then some .content else none)
    (hchildren : OnlySections helpers (Node.element element).children)
    (hdeclared : declared.Tags earlier) :
    Answers parent earlier (⟨.element element, scope⟩ ::
        sites (element.heading.name?.or scope) (Node.element element).children)
      (compileHelper helpers again scope declared element) := by
  obtain ⟨hreports, hcontent⟩ := reports_requireHelper hknown
  have hskip : declared.Tags (earlier ++ [⟨.element element, scope⟩]) :=
    hdeclared.skip (by simp [Site.taggedName?, hhelper])
  apply Answers.cons
  · have hchecks : Site.checks parent earlier ⟨.element element, scope⟩ =
        helperChecks element.heading element.span.offset := if_pos hhelper
    rw [Site.mistake?, hchecks]
    exact hreports
  · intro helper hok
    obtain rfl := hcontent helper hok
    have hnodes : (Helper.content element).getD [] = (Node.element element).children := rfl
    rw [hnodes]
    have hinside := fun around =>
      hagain _ hdepth hchildren around _ declared hskip
    cases hname : element.name? with
    | none =>
        rw [show element.heading.name? = none from hname, Option.none_or]
        exact hinside scope
    | some name =>
        rw [show element.heading.name? = some name from hname, Option.some_or]
        apply (hinside (some name)).andThen
        intro fragments after
        exact ⟨_, _, rfl, rfl⟩

/-- The compiled form of an element with a name. -/
theorem answers_named (hhelper : element.heading.isHelper = false) {name : String}
    (hname : element.heading.name? = some name)
    (hchildren : ∀ earlier declared, declared.Tags earlier →
      Answers parent earlier (sites (some name) (Node.element element).children)
        (compileNodes helpers parent again (some name) declared (Node.element element).children))
    (hdeclared : declared.Tags earlier) :
    Answers parent earlier (⟨.element element, scope⟩ ::
        sites (some name) (Node.element element).children)
      (compileElement helpers parent again scope declared element) := by
  rw [compileElement_named hhelper hname]
  apply Answers.cons
  · have hchecks : Site.checks parent earlier ⟨.element element, scope⟩ =
        namedChecks parent earlier element.heading name element.span.offset := by
      simp [Site.checks, hhelper, hname]
    rw [Site.mistake?, hchecks]
    exact reports_namedHeading hdeclared element.heading name element.span.offset
  · rintro ⟨tag, attributes⟩ -
    dsimp only
    rw [compileContent_eq_compileNodes]
    apply Answers.andThen
    · apply hchildren
      apply hdeclared.announce
      simp [Site.taggedName?, hhelper, hname]
    · intro fragments after
      exact ⟨_, _, rfl, rfl⟩

/-- The compiled form of an element without a name. -/
theorem answers_unnamed (hhelper : element.heading.isHelper = false)
    (hname : element.heading.name? = none)
    (hchildren : ∀ earlier declared, declared.Tags earlier →
      Answers parent earlier (sites scope (Node.element element).children)
        (compileNodes helpers parent again scope declared (Node.element element).children))
    (hdeclared : declared.Tags earlier) :
    Answers parent earlier (⟨.element element, scope⟩ ::
        sites scope (Node.element element).children)
      (compileElement helpers parent again scope declared element) := by
  rw [compileElement_unnamed hhelper hname]
  apply Answers.cons
  · have hchecks : Site.checks parent earlier ⟨.element element, scope⟩ =
        unnamedChecks parent element.heading element.span.offset := by
      simp [Site.checks, hhelper, hname]
    rw [Site.mistake?, hchecks]
    exact reports_unnamedHeading element.heading element.span.offset
  · rintro ⟨tag, attributes⟩ -
    dsimp only
    rw [compileContent_eq_compileNodes]
    apply Answers.andThen
    · apply hchildren
      apply hdeclared.skip
      simp [Site.taggedName?, hhelper, hname]
    · intro fragments after
      exact ⟨_, _, rfl, rfl⟩

/-- The compiled form of a node without children. -/
theorem answers_flat {node : Node} (hflat : ∀ element, node ≠ .element element)
    (hdeclared : declared.Tags earlier) :
    Answers parent earlier (sitesOf scope node)
      (compileNode helpers parent again scope declared node) := by
  cases node with
  | element element => exact absurd rfl (hflat element)
  | literal literal =>
      have hnone : Reports (Site.mistake? parent earlier ⟨.literal literal, scope⟩) (.ok ()) :=
        .success ()
      rw [compileNode_literal, sitesOf]
      exact answers_leaf hdeclared rfl hnone fun _ => [.text (Text.unescape literal.value)]
  | comment comment =>
      have hnone : Reports (Site.mistake? parent earlier ⟨.comment comment, scope⟩) (.ok ()) :=
        .success ()
      rw [compileNode_comment, sitesOf]
      exact answers_leaf hdeclared rfl hnone fun _ => []
  | superCall call =>
      have hcall : Reports (Site.mistake? parent earlier ⟨.superCall call, scope⟩)
          (superContent parent scope call) := reports_superContent scope call
      rw [compileNode_superCall, sitesOf]
      exact answers_leaf hdeclared rfl hcall fun content => [.splice content]

/-- Nodes one after the other. -/
theorem answers_cons {node : Node} {nodes : List Node}
    (hnode : Answers parent earlier (sitesOf scope node)
      (compileNode helpers parent again scope declared node))
    (hnodes : ∀ earlier declared, declared.Tags earlier →
      Answers parent earlier (sites scope nodes)
        (compileNodes helpers parent again scope declared nodes)) :
    Answers parent earlier (sites scope (node :: nodes))
      (compileNodes helpers parent again scope declared (node :: nodes)) := by
  rw [compileNodes_cons, sites]
  apply hnode.bind
  intro fragments after hafter
  apply (hnodes _ after hafter).andThen
  intro rest last
  exact ⟨_, _, rfl, rfl⟩

/-- Nodes are compiled unless one of them has a mistake, if this is so for what is inside their
sections. -/
theorem answers_compileNodes (hagain : AnswersBelow helpers parent depth again) :
    AnswersBelow helpers parent (depth + 1) (compileNodes helpers parent again) := by
  intro nodes
  induction nodes using Node.inductAll with
  | nil =>
      intro _ _ scope earlier declared hdeclared
      rw [compileNodes_nil]
      exact answers_nil hdeclared []
  | element element nodes ihChildren ih =>
      intro hdepth honly scope earlier declared hdeclared
      rw [Node.depthOfAll, depth_element] at hdepth
      cases honly with
      | cons helement hchildren hnodes =>
      have hinside := ihChildren (by omega) hchildren
      refine answers_cons ?_ (ih (by omega) hnodes scope)
      rw [compileNode_element, sitesOf_element]
      by_cases hhelper : element.heading.isHelper = true
      · rw [compileElement_helper hhelper]
        apply answers_helper hagain hhelper (by omega) _ hchildren hdeclared
        intro tag htag
        exact helement element tag rfl hhelper htag
      · rw [Bool.not_eq_true] at hhelper
        cases hname : element.heading.name? with
        | none => exact answers_unnamed hhelper hname (hinside scope) hdeclared
        | some name => exact answers_named hhelper hname (hinside (some name)) hdeclared
  | literal literal nodes ih =>
      intro hdepth honly scope earlier declared hdeclared
      cases honly with
      | cons _ _ hnodes =>
      rw [Node.depthOfAll, Node.depth, Nat.zero_max] at hdepth
      exact answers_cons (answers_flat (by simp) hdeclared) (ih hdepth hnodes scope)
  | comment comment nodes ih =>
      intro hdepth honly scope earlier declared hdeclared
      cases honly with
      | cons _ _ hnodes =>
      rw [Node.depthOfAll, Node.depth, Nat.zero_max] at hdepth
      exact answers_cons (answers_flat (by simp) hdeclared) (ih hdepth hnodes scope)
  | superCall call nodes ih =>
      intro hdepth honly scope earlier declared hdeclared
      cases honly with
      | cons _ _ hnodes =>
      rw [Node.depthOfAll, Node.depth, Nat.zero_max] at hdepth
      exact answers_cons (answers_flat (by simp) hdeclared) (ih hdepth hnodes scope)

/-- A budget is enough for all sections that nest less deep. -/
theorem answers_compileWithin (budget : Nat) :
    AnswersBelow helpers parent (budget + 1) (compileWithin helpers parent budget) := by
  induction budget with
  | zero =>
      apply answers_compileNodes
      intro nodes hdepth
      omega
  | succ budget ih => exact answers_compileNodes ih

end Nodes

/-! ## Documents -/

/-- A document whose helper elements are sections, or not known, is compiled exactly if no node
has a mistake behind the nodes before it.  Otherwise the mistake that is reported is the first
one, and in any case there is an answer. -/
theorem compile_first_mistake {helpers : Table Helper} {nodes : List Node}
    (honly : OnlySections helpers nodes) (parent : Option Compiled) :
    ((∃ compiled, compile helpers parent nodes = .ok compiled) ↔
        ∀ earlier site later, sites none nodes = earlier ++ site :: later →
          site.mistake? parent earlier = none) ∧
      (∀ error, compile helpers parent nodes = .error (.fault error) ↔
        ∃ earlier site later, sites none nodes = earlier ++ site :: later ∧
          (∀ front other back, earlier = front ++ other :: back →
            other.mistake? parent front = none) ∧
          site.mistake? parent earlier = some error) ∧
      compile helpers parent nodes ≠ .error .unfinished := by
  have hbelow : AnswersBelow helpers parent (Node.depthOfAll nodes + helperReserve + 1)
      (compileWithin helpers parent (Node.depthOfAll nodes + helperReserve)) :=
    answers_compileWithin (Node.depthOfAll nodes + helperReserve)
  have hanswers := hbelow nodes (by omega) honly none [] .empty Declarations.tags_empty
  have hreports : Reports (mistakeIn parent [] (sites none nodes))
      (compile helpers parent nodes) := hanswers.reports.map
  refine ⟨?_, ?_, hreports.ne_unfinished⟩
  · rw [← hreports.eq_none_iff, mistakeIn_eq_none_iff]
    simp only [List.nil_append]
  · intro error
    rw [← hreports.eq_some_iff, mistakeIn_eq_some_iff]
    simp only [mistakeIn_eq_none_iff, List.nil_append]

/-- The content of `div/card`. -/
def emptyCard : List Node :=
  [.element ⟨⟨false, some "div", some [some "card"], none⟩, none, ⟨0, "div/card"⟩⟩]

/-- The content of `/card{super.note! @other}`, with two mistakes. -/
def brokenCard : List Node :=
  [.element ⟨⟨false, none, some [some "card"], none⟩,
    some [.superCall ⟨some "note", ⟨6, "super.note!"⟩⟩,
      .element ⟨⟨true, some "other", none, none⟩, none, ⟨18, "@other"⟩⟩],
    ⟨0, "/card\x7bsuper.note! @other\x7d"⟩⟩]

/-- The tag of the card comes from the parent, so the first mistake of the broken card is that
the parent has no note. -/
theorem brokenCard_first_mistake :
    ∃ parent, compile Registry.initial.helpers none emptyCard = .ok parent ∧
      OnlySections Registry.initial.helpers brokenCard ∧
      compile Registry.initial.helpers (some parent) brokenCard =
        .error (.fault ⟨.unknownSuperTarget "note", some 6⟩) := by
  obtain ⟨parent, hparent⟩ : ∃ parent,
      compile Registry.initial.helpers none emptyCard = .ok parent := ⟨_, rfl⟩
  have honly : OnlySections Registry.initial.helpers brokenCard := by
    refine .cons ?_ (.cons ?_ .nil (.cons ?_ .nil .nil)) .nil
    · rintro _ tag ⟨⟩ hhelper
      cases hhelper
    · rintro _ tag ⟨⟩
    · rintro _ tag ⟨⟩ - htag
      cases htag
      rfl
  refine ⟨parent, hparent, honly, ?_⟩
  apply ((compile_first_mistake honly (some parent)).2.1 _).2
  cases hparent
  refine ⟨_, _, _, (rfl : _ = [_] ++ _ :: [_]), ?_, rfl⟩
  simpa using mistakeIn_eq_none_iff.1 (rfl : mistakeIn (some _) [] [_] = none)

end BemMarkup.Template

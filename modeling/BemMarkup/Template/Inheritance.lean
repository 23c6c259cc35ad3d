import BemMarkup.Result
import BemMarkup.Template.Compiled
import BemMarkup.Template.CompileError

/-!
# What an element inherits

A named element may leave out its tag and take the one that its template or an ancestor
has for it. A super call takes more: in an attribute list the attributes, and in content
the content, of an element of the ancestors. Each of them is refused where there is
nothing to take.

The checks are made in a fixed order, so a document with several mistakes has one first
mistake. A named element needs its tag first and then what its super call refers to. An
element without a name inherits nothing: a super call in its attribute list is a mistake
before a missing tag is.

## Main definitions

* `namedHeading`, `unnamedHeading`: the tag and the attributes of an element.
* `superContent`: the content that a super call stands for.

## Main statements

* `namedHeading_eq_ok`, `unnamedHeading_eq_ok`: where the parts of a heading come from.
* `superContent_eq_ok`: spliced content is that of a renderer of the parent.
-/

namespace BemMarkup.Template

open Document

/-! ## Stops -/

/-- Why a document is not compiled. -/
inductive Stop where
  /-- The document has a mistake. -/
  | fault (error : CompileError)
  /-- Helpers keep giving helper elements. -/
  | unfinished
deriving DecidableEq, Repr

/-- A compile error at a place of the source. -/
def Stop.faultAt (kind : CompileErrorKind) (offset : Nat) : Stop := .fault ⟨kind, some offset⟩

/-! ## What a parent gives -/

/-- The tag that a parent has for an element. -/
def inheritedTag? (parent : Option Compiled) (name : String) : Option String :=
  parent.bind fun compiled => compiled.tags.get? name

/-- The parent, where a super call needs one. -/
def requireParent (parent : Option Compiled) (call : SuperCall) : Except Stop Compiled :=
  match parent with
  | some compiled => .ok compiled
  | none => .error (.faultAt .superCallWithoutParent call.span.offset)

/-- The renderer that a super call refers to, where `around` is the element that a call
without a target means. -/
def requireTarget (parent : Compiled) (call : SuperCall) (around : String) :
    Except Stop Renderer :=
  let target := call.target.getD around
  match parent.renderers.get? target with
  | some renderer => .ok renderer
  | none => .error (.faultAt (.unknownSuperTarget target) call.span.offset)

/-! ## Headings -/

/-- The tag of a named element: its own, or else the one that its template or an ancestor
has for it. -/
def tagOf (parent : Option Compiled) (declared : Declarations) (heading : Heading)
    (name : String) (offset : Nat) : Except Stop String :=
  match heading.tag.or ((declared.tags.get? name).or (inheritedTag? parent name)) with
  | some tag => .ok tag
  | none => .error (.faultAt (.missingTagName (some name)) offset)

/-- The attributes that a named element starts from: those of the ancestors' element that
its super call refers to, and none without a super call. -/
def inheritedAttributes (parent : Option Compiled) (heading : Heading) (name : String) :
    Except Stop AttributeList :=
  match heading.superCall? with
  | none => .ok .empty
  | some call => do
    let compiled ← requireParent parent call
    let _ ← requireTarget compiled call name
    return (compiled.attributes.get? (call.target.getD name)).getD .empty

/-- The tag and the attributes of a named element. -/
def namedHeading (parent : Option Compiled) (declared : Declarations) (heading : Heading)
    (name : String) (offset : Nat) : Except Stop (String × AttributeList) := do
  let tag ← tagOf parent declared heading name offset
  let inherited ← inheritedAttributes parent heading name
  return (tag, inherited.extend heading.ownAttributes)

/-- The tag and the attributes of an element without a name. It inherits nothing, so it
needs a tag and has no use for a super call. -/
def unnamedHeading (parent : Option Compiled) (heading : Heading) (offset : Nat) :
    Except Stop (String × AttributeList) := do
  match heading.superCall? with
  | none => pure ()
  | some call =>
    let _ ← requireParent parent call
    throw (.faultAt .superCallOutsideElement call.span.offset)
  match heading.tag with
  | some tag => return (tag, AttributeList.empty.extend heading.ownAttributes)
  | none => throw (.faultAt (.missingTagName none) offset)

/-! ## Content -/

/-- The content that a super call stands for, where `scope` is the named element around
it. -/
def superContent (parent : Option Compiled) (scope : Option String) (call : SuperCall) :
    Except Stop (List Fragment) := do
  let compiled ← requireParent parent call
  match scope with
  | none => throw (.faultAt .superCallOutsideElement call.span.offset)
  | some around => return (← requireTarget compiled call around).content

/-! ## Where it is taken from -/

section Sources

variable {parent : Option Compiled}

theorem requireParent_eq_ok {call : SuperCall} {compiled : Compiled}
    (h : requireParent parent call = .ok compiled) : parent = some compiled := by
  unfold requireParent at h
  split at h
  · cases h
    rfl
  · cases h

theorem requireTarget_eq_ok {compiled : Compiled} {call : SuperCall} {around : String}
    {renderer : Renderer} (h : requireTarget compiled call around = .ok renderer) :
    compiled.renderers.get? (call.target.getD around) = some renderer := by
  unfold requireTarget at h
  dsimp only at h
  split at h
  · rename_i found hget
    cases h
    exact hget
  · cases h

/-- Spliced content is that of a renderer of the parent. -/
theorem superContent_eq_ok {scope : Option String} {call : SuperCall} {content : List Fragment}
    (h : superContent parent scope call = .ok content) :
    ∃ compiled around renderer, parent = some compiled ∧ scope = some around ∧
      compiled.renderers.get? (call.target.getD around) = some renderer ∧
      content = renderer.content := by
  obtain ⟨compiled, hcompiled, h⟩ := bind_eq_ok_iff.1 h
  cases scope with
  | none => cases h
  | some around =>
    obtain ⟨renderer, hrenderer, h⟩ := bind_eq_ok_iff.1 h
    cases h
    exact ⟨compiled, around, renderer, requireParent_eq_ok hcompiled, rfl,
      requireTarget_eq_ok hrenderer, rfl⟩

theorem inheritedAttributes_eq_ok {heading : Heading} {name : String}
    {inherited : AttributeList} (h : inheritedAttributes parent heading name = .ok inherited) :
    inherited = (heading.superCall?.map fun call =>
      (parent.bind (·.attributes.get? (call.target.getD name))).getD .empty).getD .empty := by
  unfold inheritedAttributes at h
  split at h
  · rename_i hnone
    cases h
    rw [hnone]
    rfl
  · rename_i call hcall
    obtain ⟨compiled, hcompiled, h⟩ := bind_eq_ok_iff.1 h
    obtain ⟨_, -, h⟩ := bind_eq_ok_iff.1 h
    cases h
    rw [hcall, requireParent_eq_ok hcompiled]
    rfl

/-- A heading with a name has the tag that is written in it, or else the one that its
template or an ancestor has for the name, and sets its attributes on top of those that its
super call refers to. -/
theorem namedHeading_eq_ok {declared : Declarations} {heading : Heading} {name : String}
    {offset : Nat} {tag : String} {attributes : AttributeList}
    (h : namedHeading parent declared heading name offset = .ok (tag, attributes)) :
    heading.tag.or ((declared.tags.get? name).or (inheritedTag? parent name)) = some tag ∧
      attributes = ((heading.superCall?.map fun call =>
        (parent.bind (·.attributes.get? (call.target.getD name))).getD .empty).getD
          .empty).extend heading.ownAttributes := by
  obtain ⟨tag', htag, h⟩ := bind_eq_ok_iff.1 h
  obtain ⟨inherited, hinherited, h⟩ := bind_eq_ok_iff.1 h
  cases h
  rw [inheritedAttributes_eq_ok hinherited]
  refine ⟨?_, rfl⟩
  unfold tagOf at htag
  split at htag
  · rename_i found hfound
    cases htag
    exact hfound
  · cases htag

/-- A heading without a name has a tag of its own and inherits nothing. -/
theorem unnamedHeading_eq_ok {heading : Heading} {offset : Nat} {tag : String}
    {attributes : AttributeList}
    (h : unnamedHeading parent heading offset = .ok (tag, attributes)) :
    heading.tag = some tag ∧ attributes = AttributeList.empty.extend heading.ownAttributes := by
  unfold unnamedHeading at h
  cases hcall : heading.superCall? with
  | none =>
    simp only [hcall] at h
    split at h
    · rename_i found htag
      cases h
      exact ⟨htag, rfl⟩
    · cases h
  | some call =>
    simp only [hcall] at h
    obtain ⟨_, -, h⟩ := bind_eq_ok_iff.1 h
    cases h

end Sources

end BemMarkup.Template

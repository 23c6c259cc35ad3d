import BemMarkup.Error
import BemMarkup.Session.Event
import BemMarkup.Template.Compilation
import BemMarkup.Template.Rendering

/-!
# Sessions

A session is a set of templates that extend each other, the helpers that they are compiled
with and the log of what has been done. Templates are known by identifiers; a template
names its parent, which is always older than itself.

A template keeps its block names and the stems of its classes. The stems include those of
its ancestors, so they would be wrong if an ancestor were renamed; therefore a template
that is a parent is *shared* and cannot be renamed.

A template is compiled when its markup is first asked for, after its ancestors, and the
compiled form is kept. The first compilation freezes the registry of helpers. Since
nothing that a compiled form depends on changes after that, keeping it cannot be noticed.

## Main definitions

* `Session`, `Template`: the state.
* `lineage`: a template and its ancestors.
* `Session.obtain`: the compiled form of a template.
-/

namespace BemMarkup

open Document Template

/-! ## State -/

/-- A template of a session. -/
structure Template where
  /-- The document; a derived template has none. -/
  block : Option Block
  /-- The template that it extends. -/
  parent : Option String
  /-- Its block names. -/
  blockNames : List String
  /-- The stems of its classes. -/
  stems : List String

/-- The nodes of a template. -/
def Template.nodes (template : Template) : List Node :=
  match template.block with
  | none => []
  | some block => block.content

/-- A session. -/
structure Session where
  /-- The templates with their identifiers, the last one first. -/
  templates : List (String × Template)
  /-- The compiled forms that are known, by the identifiers of their templates. -/
  compiled : Table Compiled
  /-- The helpers. -/
  registry : Registry
  /-- What has been done, the first thing first. -/
  log : List Event

/-- Why a session refuses an action. -/
inductive Refusal where
  /-- Something is wrong with a document, a helper or a template. -/
  | failed (error : Error)
  /-- Helpers keep giving helper elements. -/
  | unfinished
  /-- There is no template of this identifier. -/
  | noTemplate (id : String)
  /-- There is a template of this identifier. -/
  | duplicate (id : String)
  /-- The template of this identifier has children. -/
  | shared (id : String)
deriving DecidableEq, Repr

/-- The refusal that a compilation ends in. -/
def Refusal.ofStop : Stop → Refusal
  | .fault error => .failed (.compile error)
  | .unfinished => .unfinished

/-- The refusal that a rendering ends in. -/
def Refusal.ofRenderFault (fault : RenderFault) : Refusal := .failed (.render fault.message)

namespace Session

/-- A session in which nothing has been done. -/
def initial : Session := ⟨[], .empty, .initial, []⟩

/-- The template of an identifier. -/
def template? (s : Session) (id : String) : Option Template := s.templates.lookup id

/-- Whether a template has children. -/
def isShared (s : Session) (id : String) : Bool :=
  s.templates.any fun entry => entry.2.parent == some id

/-- Adds a record to the log. -/
def record (s : Session) (event : Event) : Session := { s with log := s.log ++ [event] }

/-- Adds a template. -/
def add (s : Session) (id : String) (template : Template) : Session :=
  { s with templates := (id, template) :: s.templates }

/-- Gives a template other block names. -/
def rename (s : Session) (id : String) (blockNames stems : List String) : Session :=
  { s with templates := s.templates.map fun entry =>
      if entry.1 = id then (id, { entry.2 with blockNames := blockNames, stems := stems })
      else entry }

/-- Makes the helpers final. -/
def freeze (s : Session) : Session :=
  if s.registry.isFrozen then s
  else { s.record (.frozen s.registry.helpers.size) with registry := s.registry.freeze }

/-- Keeps the compiled form of a template. -/
def remember (s : Session) (id : String) (compiled : Compiled) : Session :=
  { s with compiled := s.compiled.insert id compiled }

/-! ## Compiled forms -/

/-- Compiles a template whose parent, if it has one, is compiled. -/
def compileNow (s : Session) (id : String) (template : Template) (parent : Option Compiled) :
    Except Refusal Compiled × Session :=
  let s := (s.record (.compiling template.blockNames)).freeze
  match compile s.registry.helpers parent template.nodes with
  | .error stop => (.error (.ofStop stop), s)
  | .ok compiled =>
    (.ok compiled,
      (s.record (.compiled compiled.declaredCount parent.isSome)).remember id compiled)

/-- The compiled form of a template with the given ancestors, the parent first. Forms that
are known are not computed again. -/
def obtainFrom (s : Session) (id : String) (template : Template) :
    List (String × Template) → Except Refusal Compiled × Session
  | [] =>
    match s.compiled.get? id with
    | some compiled => (.ok compiled, s)
    | none => s.compileNow id template none
  | (parentId, parent) :: ancestors =>
    match s.compiled.get? id with
    | some compiled => (.ok compiled, s)
    | none =>
      match s.obtainFrom parentId parent ancestors with
      | (.error refusal, s) => (.error refusal, s)
      | (.ok compiled, s) => s.compileNow id template (some compiled)

end Session

/-- The template of an identifier and its ancestors, each before its own parent. -/
def lineage : List (String × Template) → String → List (String × Template)
  | [], _ => []
  | (key, template) :: older, id =>
    if key = id then
      (key, template) ::
        match template.parent with
        | none => []
        | some parent => lineage older parent
    else lineage older id

/-- The template of an identifier with its compiled form. -/
def Session.obtain (s : Session) (id : String) :
    Except Refusal (Template × Compiled) × Session :=
  match lineage s.templates id with
  | [] => (.error (.noTemplate id), s)
  | (_, template) :: ancestors =>
    match s.obtainFrom id template ancestors with
    | (.error refusal, s) => (.error refusal, s)
    | (.ok compiled, s) => (.ok (template, compiled), s)

end BemMarkup

import BemMarkup.Session.Basic

/-!
# What can be done in a session

An `Action` is performed on a session and gives an `Answer` and the session after it. An
action that is refused adds no template, changes none and registers no helper; it may
still have compiled ancestors and frozen the registry on its way.

Checks are made in a fixed order, so of several reasons to refuse an action the answer
gives the first: an identifier in use, a parent that does not exist, a source that does
not parse, a block without a name.

## Main definitions

* `Session.perform`: the effect of one action.
* `Session.run`: the answers to a list of actions, each with its part of the log.
-/

namespace BemMarkup

open Document Template

/-! ## Actions and answers -/

/-- Where the document of a new template comes from. -/
inductive Origin where
  /-- A text to be parsed. -/
  | source (text : String)
  /-- A document that is parsed already. -/
  | block (block : Block)

/-- What a new template may be given besides its document. -/
structure Options where
  /-- The template to extend. -/
  parent : Option String
  /-- A block name. -/
  blockName : Option String
  /-- Several block names; where they are given, the single one has no effect. -/
  blockNames : Option (List String)
deriving DecidableEq, Repr

/-- The block names that options give to a template in place of its own. -/
def Options.names (options : Options) : List String :=
  options.blockNames.getD options.blockName.toList

/-- Something to be done in a session. -/
inductive Action where
  /-- Makes a template from a document. -/
  | create (id : String) (origin : Origin) (options : Options)
  /-- Makes a template that only has another block name than its parent. -/
  | derive (id parent blockName : String)
  /-- Gives a template other block names. -/
  | rename (id : String) (blockNames : List String)
  /-- Compiles a template. -/
  | compile (id : String)
  /-- Renders a template. -/
  | render (id : String)
  /-- Renders an element of a template. -/
  | renderElement (id name : String)
  /-- Describes a template. -/
  | describe (id : String)
  /-- Gives the document of a template. -/
  | document (id : String)
  /-- Registers a helper. -/
  | register (name : String) (recipe : Recipe)
  /-- Tells whether helpers are still taken. -/
  | isFrozen

/-- A description of a template. -/
structure Description where
  /-- The block names. -/
  blockNames : List String
  /-- The stems of the classes. -/
  stems : List String
  /-- The name that the document has of its own. -/
  declared : Option String
  /-- Whether there is a document. -/
  hasBlock : Bool
  /-- The parent. -/
  parent : Option String
deriving DecidableEq, Repr

/-- What an action gives. -/
inductive Answer where
  /-- Nothing but the effect. -/
  | done
  /-- The markup of a template. -/
  | markup (html : String)
  /-- The markup of an element, if there is such an element. -/
  | element (html : Option String)
  /-- The stems of a template's classes. -/
  | stems (stems : List String)
  /-- A description. -/
  | description (description : Description)
  /-- A document, if the template has one. -/
  | document (block : Option Block)
  /-- Whether the registry is frozen. -/
  | frozen (isFrozen : Bool)

/-- The outcome of an action. -/
abbrev Outcome := Except Refusal Answer

namespace Session

/-! ## Making templates -/

/-- The stems of the parent of a new template; nothing if it has no parent. -/
def parentStems (s : Session) : Option String → Except Refusal (Option (List String))
  | none => .ok none
  | some id =>
    match s.template? id with
    | none => .error (.noTemplate id)
    | some parent => .ok (some parent.stems)

/-- Parses a source, which is recorded. -/
def parseSource (s : Session) (text : String) : Except Refusal Block × Session :=
  ((parse text).mapError fun error => .failed (.parse error),
    s.record (.parsing text.utf8ByteSize))

/-- The document of a new template. -/
def blockOf (s : Session) : Origin → Except Refusal Block × Session
  | .source text => s.parseSource text
  | .block block => (.ok block, s)

/-- The block names of a new template: those that are given or else that of its
document. -/
def namesOf (block : Block) (given : List String) : Except Refusal (List String) :=
  match given, block.name with
  | [], none => .error (.failed .missingBlockName)
  | [], some name => .ok [name]
  | given, _ => .ok given

/-- Makes a template from a document. -/
def create (s : Session) (id : String) (origin : Origin) (options : Options) :
    Outcome × Session :=
  if (s.template? id).isSome then (.error (.duplicate id), s)
  else
    match s.parentStems options.parent with
    | .error refusal => (.error refusal, s)
    | .ok inherited =>
      match s.blockOf origin with
      | (.error refusal, s) => (.error refusal, s)
      | (.ok block, s) =>
        match namesOf block options.names with
        | .error refusal => (.error refusal, s)
        | .ok names =>
          (.ok .done, s.add id ⟨some block, options.parent, names, classStems names inherited⟩)

/-- Makes a template that only has another block name than its parent. -/
def derive (s : Session) (id parent blockName : String) : Outcome × Session :=
  if (s.template? id).isSome then (.error (.duplicate id), s)
  else
    match s.parentStems (some parent) with
    | .error refusal => (.error refusal, s)
    | .ok inherited =>
      (.ok .done,
        s.add id ⟨none, some parent, [blockName], classStems [blockName] inherited⟩)

/-- Gives a template other block names. Its ancestors keep theirs, so the stems after the
template's own stay as they are. -/
def setNames (s : Session) (id : String) (blockNames : List String) : Outcome × Session :=
  match s.template? id with
  | none => (.error (.noTemplate id), s)
  | some template =>
    if s.isShared id then (.error (.shared id), s)
    else if blockNames.isEmpty then (.error (.failed .missingBlockName), s)
    else
      match s.parentStems template.parent with
      | .error refusal => (.error refusal, s)
      | .ok inherited =>
        let stems := classStems blockNames inherited
        (.ok (.stems stems), s.rename id blockNames stems)

/-! ## Using templates -/

/-- Compiles a template. -/
def compileTemplate (s : Session) (id : String) : Outcome × Session :=
  match s.obtain id with
  | (.error refusal, s) => (.error refusal, s)
  | (.ok _, s) => (.ok .done, s)

/-- Renders a template. -/
def renderTemplate (s : Session) (id : String) : Outcome × Session :=
  match s.obtain id with
  | (.error refusal, s) => (.error refusal, s)
  | (.ok (template, compiled), s) =>
    (match compiled.render template.stems with
      | .error fault => .error (.ofRenderFault fault)
      | .ok html => .ok (.markup html),
      s.record (.rendering template.blockNames))

/-- Renders an element of a template. -/
def renderElementOf (s : Session) (id name : String) : Outcome × Session :=
  match s.obtain id with
  | (.error refusal, s) => (.error refusal, s)
  | (.ok (template, compiled), s) =>
    (match compiled.renderElement? template.stems name with
      | .error fault => .error (.ofRenderFault fault)
      | .ok html => .ok (.element html), s)

/-- Answers from a template, without any effect. -/
def inspect (s : Session) (id : String) (answer : Template → Answer) : Outcome × Session :=
  match s.template? id with
  | none => (.error (.noTemplate id), s)
  | some template => (.ok (answer template), s)

/-- The description of a template. -/
def describe (template : Template) : Description :=
  ⟨template.blockNames, template.stems, template.block.bind (·.name), template.block.isSome,
    template.parent⟩

/-! ## Helpers -/

/-- Makes the helper that a recipe describes. A source in it is parsed, which is
recorded. -/
def buildHelper (s : Session) (recipe : Recipe) : Except Refusal Helper × Session :=
  (recipe.build.mapError fun error => .failed (.parse error),
    match recipe with
    | .source text => s.record (.parsing text.utf8ByteSize)
    | _ => s)

/-- Registers a helper. -/
def registerHelper (s : Session) (name : String) (recipe : Recipe) : Outcome × Session :=
  match s.buildHelper recipe with
  | (.error refusal, s) => (.error refusal, s)
  | (.ok helper, s) =>
    match s.registry.register name helper with
    | none => (.error (.failed (.registryFrozen name)), s)
    | some registry => (.ok .done, { s.record (.registering name) with registry := registry })

/-! ## Runs -/

/-- The outcome of an action, and the session after it. -/
def perform (s : Session) : Action → Outcome × Session
  | .create id origin options => s.create id origin options
  | .derive id parent blockName => s.derive id parent blockName
  | .rename id blockNames => s.setNames id blockNames
  | .compile id => s.compileTemplate id
  | .render id => s.renderTemplate id
  | .renderElement id name => s.renderElementOf id name
  | .describe id => s.inspect id fun template => .description (describe template)
  | .document id => s.inspect id fun template => .document template.block
  | .register name recipe => s.registerHelper name recipe
  | .isFrozen => (.ok (.frozen s.registry.isFrozen), s)

/-- The outcomes of consecutive actions, each with what it added to the log, and the
session after them. -/
def run (s : Session) : List Action → List (Outcome × List Event) × Session
  | [] => ([], s)
  | action :: actions =>
    let (outcome, next) := s.perform action
    let (outcomes, last) := next.run actions
    ((outcome, next.log.drop s.log.length) :: outcomes, last)

end Session

end BemMarkup

import BemMarkup.Proofs.Session.Soundness

/-!
# Kept compiled forms cannot be noticed

Every action keeps a session sound, so all through a run what a template is rendered to is
a function of its chain, as it is at the moment, and of the helpers.  It equals the answer
of `renderAfresh`, which compiles the chain and keeps nothing.

The templates themselves are what the edits among the actions have made of them: compiling
and rendering change no template, whether they succeed or fail.  They may make the helpers
final, and from then on the helpers are what they were at that moment, `helpersAtFreeze`.

## Main definitions

* `renderAfresh`, `renderElementAfresh`: rendering without a session.
* `helpersAtFreeze`: the helpers that a run works with.

## Main results

* `Session.Sound.perform`: every action keeps a session sound.
* `Session.answers_afresh`: after any run, rendering answers as it would afresh.
-/

namespace BemMarkup

open Document Template

/-! ## Rendering without a session -/

/-- The answer to the rendering of a chain. -/
def renderAfresh (helpers : Table Helper) (id : String) (chain : List Generation) : Outcome :=
  match compileAfresh helpers id chain with
  | .error refusal => .error refusal
  | .ok compiled =>
    match compiled.render (chainStems chain) with
    | .error fault => .error (.ofRenderFault fault)
    | .ok html => .ok (.markup html)

/-- The answer to the rendering of an element of a chain. -/
def renderElementAfresh (helpers : Table Helper) (id : String) (chain : List Generation)
    (name : String) : Outcome :=
  match compileAfresh helpers id chain with
  | .error refusal => .error refusal
  | .ok compiled =>
    match compiled.renderElement? (chainStems chain) name with
    | .error fault => .error (.ofRenderFault fault)
    | .ok html => .ok (.element html)

namespace Session

/-! ## Using templates -/

section Using

variable {s : Session} {id : String}

theorem Sound.unedited_compileTemplate (hs : s.Sound) (id : String) :
    Unedited s (s.compileTemplate id).2 := by
  rw [compileTemplate]
  obtain ⟨-, h⟩ | ⟨template, ⟨outcome, next⟩, -, hobtained, h⟩ := hs.obtain_cases id
  · rw [h]
    exact hs.unedited
  · rw [h]
    cases outcome <;> exact hobtained.unedited

/-- Compiling answers as it would afresh. -/
theorem Sound.compileTemplate_fst (hs : s.Sound) (id : String) :
    (s.compileTemplate id).1 =
      (compileAfresh s.registry.helpers id (s.chain id)).map fun _ => .done := by
  rw [compileTemplate, ← hs.obtain_fst]
  cases s.obtain id with
  | mk outcome next => cases outcome <;> rfl

/-- Rendering answers as it would afresh, and edits nothing. -/
theorem Sound.renderTemplate (hs : s.Sound) (id : String) :
    (s.renderTemplate id).1 = renderAfresh s.registry.helpers id (s.chain id) ∧
      Unedited s (s.renderTemplate id).2 := by
  rw [Session.renderTemplate, renderAfresh]
  obtain ⟨htemplate, h⟩ | ⟨template, ⟨outcome, next⟩, htemplate, hobtained, h⟩ :=
    hs.obtain_cases id
  · rw [h, chain_of_template?_eq_none htemplate]
    exact ⟨rfl, hs.unedited⟩
  · have houtcome : outcome = compileAfresh s.registry.helpers id (s.chain id) :=
      hobtained.outcome
    rw [h, ← houtcome]
    cases outcome with
    | error refusal => exact ⟨rfl, hobtained.unedited⟩
    | ok compiled =>
        rw [← hs.stems htemplate]
        exact ⟨rfl, hobtained.unedited.record _⟩

/-- So does rendering an element. -/
theorem Sound.renderElementOf (hs : s.Sound) (id name : String) :
    (s.renderElementOf id name).1 =
        renderElementAfresh s.registry.helpers id (s.chain id) name ∧
      Unedited s (s.renderElementOf id name).2 := by
  rw [Session.renderElementOf, renderElementAfresh]
  obtain ⟨htemplate, h⟩ | ⟨template, ⟨outcome, next⟩, htemplate, hobtained, h⟩ :=
    hs.obtain_cases id
  · rw [h, chain_of_template?_eq_none htemplate]
    exact ⟨rfl, hs.unedited⟩
  · have houtcome : outcome = compileAfresh s.registry.helpers id (s.chain id) :=
      hobtained.outcome
    rw [h, ← houtcome]
    cases outcome with
    | error refusal => exact ⟨rfl, hobtained.unedited⟩
    | ok compiled =>
        rw [← hs.stems htemplate]
        exact ⟨rfl, hobtained.unedited⟩

end Using

/-! ## Edits -/

section Edits

variable {s : Session}

/-- Making a template is refused, with no other effect than on the log, or adds one whose
stems are put in front of those of its parent. -/
theorem create_cases (s : Session) (id : String) (origin : Origin) (options : Options) :
    ∃ log, (∃ refusal, s.create id origin options = (.error refusal, { s with log := log })) ∨
      ∃ block names inherited, s.template? id = none ∧
        s.parentStems options.parent = .ok inherited ∧
        s.create id origin options = (.ok .done, Session.add { s with log := log } id
          ⟨some block, options.parent, names, classStems names inherited⟩) := by
  have horigin : ∃ log, (s.blockOf origin).2 = { s with log := log } := by
    cases origin with
    | source text => exact ⟨_, rfl⟩
    | block block => exact ⟨_, rfl⟩
  rw [create]
  split
  · exact ⟨s.log, .inl ⟨_, rfl⟩⟩
  · rename_i hsome
    have hnew : s.template? id = none := by simpa using hsome
    split
    · exact ⟨s.log, .inl ⟨_, rfl⟩⟩
    · rename_i inherited hinherited
      obtain ⟨log, hlog⟩ := horigin
      refine ⟨log, ?_⟩
      split
      · rename_i refusal next hnext
        rw [hnext] at hlog
        cases hlog
        exact .inl ⟨refusal, rfl⟩
      · rename_i block next hnext
        rw [hnext] at hlog
        cases hlog
        split
        · exact .inl ⟨_, rfl⟩
        · exact .inr ⟨block, _, inherited, hnew, hinherited, rfl⟩

/-- Deriving a template is refused, with no effect, or adds one. -/
theorem derive_cases (s : Session) (id parent name : String) :
    (∃ refusal, s.derive id parent name = (.error refusal, s)) ∨
      ∃ inherited, s.template? id = none ∧ s.parentStems (some parent) = .ok inherited ∧
        s.derive id parent name = (.ok .done, s.add id
          ⟨none, some parent, [name], classStems [name] inherited⟩) := by
  rw [derive]
  split
  · exact .inl ⟨_, rfl⟩
  · rename_i hsome
    have hnew : s.template? id = none := by simpa using hsome
    split
    · exact .inl ⟨_, rfl⟩
    · exact .inr ⟨_, hnew, ‹_›, rfl⟩

/-- Renaming is refused, with no effect, or gives a template without children names and the
stems that belong to them. -/
theorem setNames_cases (s : Session) (id : String) (names : List String) :
    (∃ refusal, s.setNames id names = (.error refusal, s)) ∨
      ∃ template inherited, s.template? id = some template ∧ s.isShared id = false ∧
        s.parentStems template.parent = .ok inherited ∧
        s.setNames id names = (.ok (.stems (classStems names inherited)),
          s.rename id names (classStems names inherited)) := by
  rw [setNames]
  split
  · exact .inl ⟨_, rfl⟩
  · split
    · exact .inl ⟨_, rfl⟩
    · rename_i hchildren
      have hshared : s.isShared id = false := by simpa using hchildren
      split
      · exact .inl ⟨_, rfl⟩
      · split
        · exact .inl ⟨_, rfl⟩
        · exact .inr ⟨_, _, ‹_›, hshared, ‹_›, rfl⟩

/-- Registering a helper is refused, with no other effect than on the log, or gives the
helper to the registry. -/
theorem registerHelper_cases (s : Session) (name : String) (recipe : Recipe) :
    ∃ log, (∃ refusal, s.registerHelper name recipe = (.error refusal, { s with log := log })) ∨
      ∃ helper registry, s.registry.register name helper = some registry ∧
        s.registerHelper name recipe =
          (.ok .done, { s with log := log, registry := registry }) := by
  have hbuild : ∃ log, (s.buildHelper recipe).2 = { s with log := log } := by
    cases recipe <;> exact ⟨_, rfl⟩
  obtain ⟨log, hlog⟩ := hbuild
  rw [registerHelper]
  split
  · rename_i refusal next hnext
    rw [hnext] at hlog
    cases hlog
    exact ⟨log, .inl ⟨refusal, rfl⟩⟩
  · rename_i helper next hnext
    rw [hnext] at hlog
    cases hlog
    split
    · exact ⟨log, .inl ⟨_, rfl⟩⟩
    · rename_i registry hregister
      exact ⟨_, .inr ⟨helper, registry, hregister, rfl⟩⟩

theorem Sound.create (hs : s.Sound) (id : String) (origin : Origin) (options : Options) :
    (s.create id origin options).2.Sound := by
  obtain ⟨log, ⟨refusal, h⟩ | ⟨block, names, inherited, hnew, hinherited, h⟩⟩ :=
    create_cases s id origin options
  · rw [h]
    exact hs.withLog log
  · rw [h]
    exact (hs.withLog log).add_classStems hnew hinherited (some block) names

theorem Sound.derive (hs : s.Sound) (id parent name : String) :
    (s.derive id parent name).2.Sound := by
  obtain ⟨refusal, h⟩ | ⟨inherited, hnew, hinherited, h⟩ := derive_cases s id parent name
  · rw [h]
    exact hs
  · rw [h]
    exact hs.add_classStems hnew hinherited none [name]

theorem Sound.setNames (hs : s.Sound) (id : String) (names : List String) :
    (s.setNames id names).2.Sound := by
  obtain ⟨refusal, h⟩ | ⟨template, inherited, htemplate, hshared, hinherited, h⟩ :=
    setNames_cases s id names
  · rw [h]
    exact hs
  · rw [h]
    exact hs.rename htemplate hshared hinherited names

/-- As long as helpers are taken nothing is compiled, so a new one makes nothing wrong. -/
theorem Sound.registerHelper (hs : s.Sound) (name : String) (recipe : Recipe) :
    (s.registerHelper name recipe).2.Sound := by
  obtain ⟨log, ⟨refusal, h⟩ | ⟨helper, registry, hregister, h⟩⟩ :=
    registerHelper_cases s name recipe
  · rw [h]
    exact hs.withLog log
  · have hnone : ∀ id compiled, s.compiled.get? id ≠ some compiled := by
      intro id compiled hget
      rw [Registry.register_of_frozen (hs.frozen hget)] at hregister
      cases hregister
    rw [h]
    exact ⟨hs.ordered, hs.stems, fun hget => absurd hget (hnone _ _),
      fun hget => absurd hget (hnone _ _)⟩

/-- A document with names makes a template where the identifier is new and the parent is
there. -/
theorem create_block {id : String} {parent : Option String} {inherited : Option (List String)}
    {names : List String} (hnew : s.template? id = none)
    (hinherited : s.parentStems parent = .ok inherited) (hnames : names ≠ []) (block : Block) :
    s.create id (.block block) ⟨parent, none, some names⟩ =
      (.ok .done, s.add id ⟨some block, parent, names, classStems names inherited⟩) := by
  cases names with
  | nil => exact absurd rfl hnames
  | cons name names =>
      rw [create, if_neg (by rw [hnew]; simp), hinherited]
      rfl

theorem derive_eq {id parent : String} {inherited : Option (List String)}
    (hnew : s.template? id = none) (hinherited : s.parentStems (some parent) = .ok inherited)
    (name : String) :
    s.derive id parent name =
      (.ok .done, s.add id ⟨none, some parent, [name], classStems [name] inherited⟩) := by
  rw [derive, if_neg (by rw [hnew]; simp), hinherited]

/-- A template without children can be given names. -/
theorem setNames_eq {id : String} {template : Template} {inherited : Option (List String)}
    {names : List String} (htemplate : s.template? id = some template)
    (hshared : s.isShared id = false)
    (hinherited : s.parentStems template.parent = .ok inherited) (hnames : names ≠ []) :
    s.setNames id names = (.ok (.stems (classStems names inherited)),
      s.rename id names (classStems names inherited)) := by
  cases names with
  | nil => exact absurd rfl hnames
  | cons name names =>
      rw [setNames, htemplate]
      dsimp only
      rw [hshared, hinherited]
      rfl

/-- The parent of a template has stems. -/
theorem Sound.exists_parentStems (hs : s.Sound) {id : String} {template : Template}
    (h : s.template? id = some template) :
    ∃ inherited, s.parentStems template.parent = .ok inherited := by
  cases hparent : template.parent with
  | none => exact ⟨none, rfl⟩
  | some parent =>
      obtain ⟨t, ht⟩ := hs.ordered.exists_parent h hparent
      refine ⟨some t.stems, ?_⟩
      rw [parentStems, show s.template? parent = some t from ht]

end Edits

end Session

/-! ## Actions -/

/-- Whether an action may change the templates. -/
def Action.isEdit : Action → Bool
  | .create .. | .derive .. | .rename .. => true
  | _ => false

/-- Whether an action compiles a template or renders something of it. -/
def Action.isUse : Action → Bool
  | .compile _ | .render _ | .renderElement .. => true
  | _ => false

namespace Session

section Actions

variable {s s' : Session} {action : Action}

/-- Compiling and rendering edit nothing. -/
theorem Sound.unedited_perform (hs : s.Sound) (h : action.isUse = true) :
    Unedited s (s.perform action).2 := by
  cases action with
  | compile id => exact hs.unedited_compileTemplate id
  | render id => exact (hs.renderTemplate id).2
  | renderElement id name => exact (hs.renderElementOf id name).2
  | _ => cases h

/-- Every action keeps a session sound. -/
theorem Sound.perform (hs : s.Sound) (action : Action) : (s.perform action).2.Sound := by
  cases action with
  | create id origin options => exact hs.create id origin options
  | derive id parent name => exact hs.derive id parent name
  | rename id names => exact hs.setNames id names
  | compile id => exact (hs.unedited_compileTemplate id).sound
  | render id => exact (hs.renderTemplate id).2.sound
  | renderElement id name => exact (hs.renderElementOf id name).2.sound
  | describe id | document id =>
      rw [Session.perform, inspect]
      split <;> exact hs
  | register name recipe => exact hs.registerHelper name recipe
  | isFrozen => exact hs

/-- Final helpers stay final. -/
theorem Sound.perform_registry (hs : s.Sound) (h : s.registry.isFrozen = true)
    (action : Action) : (s.perform action).2.registry = s.registry := by
  cases action with
  | create id origin options =>
      obtain ⟨log, ⟨refusal, hcreate⟩ | ⟨block, names, inherited, -, -, hcreate⟩⟩ :=
        create_cases s id origin options <;>
      rw [Session.perform, hcreate]
      rfl
  | derive id parent name =>
      obtain ⟨refusal, hderive⟩ | ⟨inherited, -, -, hderive⟩ :=
        derive_cases s id parent name <;>
      rw [Session.perform, hderive]
      rfl
  | rename id names =>
      obtain ⟨refusal, hrename⟩ | ⟨template, inherited, -, -, -, hrename⟩ :=
        setNames_cases s id names <;>
      rw [Session.perform, hrename]
      rfl
  | compile id => exact (hs.unedited_compileTemplate id).frozen h
  | render id => exact (hs.renderTemplate id).2.frozen h
  | renderElement id name => exact (hs.renderElementOf id name).2.frozen h
  | describe id | document id =>
      rw [Session.perform, inspect]
      split <;> rfl
  | register name recipe =>
      obtain ⟨log, ⟨refusal, hregister⟩ | ⟨helper, registry, hsome, hregister⟩⟩ :=
        registerHelper_cases s name recipe
      · rw [Session.perform, hregister]
      · rw [Registry.register_of_frozen h] at hsome
        cases hsome
  | isFrozen => rfl

/-- Only edits change the templates. -/
theorem Sound.perform_templates (hs : s.Sound) (h : action.isEdit = false) :
    (s.perform action).2.templates = s.templates := by
  cases action with
  | create id origin options | derive id parent name | rename id names => cases h
  | compile id => exact (hs.unedited_compileTemplate id).templates
  | render id => exact (hs.renderTemplate id).2.templates
  | renderElement id name => exact (hs.renderElementOf id name).2.templates
  | describe id | document id =>
      rw [Session.perform, inspect]
      split <;> rfl
  | register name recipe =>
      obtain ⟨log, ⟨refusal, hregister⟩ | ⟨helper, registry, -, hregister⟩⟩ :=
        registerHelper_cases s name recipe <;>
      rw [Session.perform, hregister]
  | isFrozen => rfl

theorem template?_congr (h : s.templates = s'.templates) (id : String) :
    s.template? id = s'.template? id := by
  rw [template?, h, ← template?]

theorem isShared_congr (h : s.templates = s'.templates) (id : String) :
    s.isShared id = s'.isShared id := by
  rw [isShared, h, ← isShared]

theorem parentStems_congr (h : s.templates = s'.templates) (parent : Option String) :
    s.parentStems parent = s'.parentStems parent := by
  cases parent with
  | none => rfl
  | some parent => rw [parentStems, parentStems, template?_congr h]

/-- Documents of new templates do not depend on the session, and reading them leaves the
templates as they are. -/
theorem blockOf_congr (h : s.templates = s'.templates) (origin : Origin) :
    (s.blockOf origin).1 = (s'.blockOf origin).1 ∧
      (s.blockOf origin).2.templates = (s'.blockOf origin).2.templates := by
  cases origin <;> exact ⟨rfl, h⟩

theorem create_templates_congr (h : s.templates = s'.templates) (id : String) (origin : Origin)
    (options : Options) :
    (s.create id origin options).2.templates = (s'.create id origin options).2.templates := by
  rw [create, create, template?_congr h, parentStems_congr h]
  by_cases hused : (s'.template? id).isSome = true
  · rw [if_pos hused, if_pos hused]
    exact h
  · rw [if_neg hused, if_neg hused]
    cases s'.parentStems options.parent with
    | error refusal => exact h
    | ok inherited =>
        obtain ⟨hblock, htemplates⟩ := blockOf_congr h origin
        generalize s.blockOf origin = first at *
        generalize s'.blockOf origin = second at *
        obtain ⟨block, next⟩ := first
        obtain ⟨block', next'⟩ := second
        cases hblock
        cases block with
        | error refusal => exact htemplates
        | ok block =>
            dsimp only at htemplates ⊢
            cases namesOf block options.names with
            | error refusal => exact htemplates
            | ok names => simp only [add, htemplates]

theorem derive_templates_congr (h : s.templates = s'.templates) (id parent name : String) :
    (s.derive id parent name).2.templates = (s'.derive id parent name).2.templates := by
  rw [derive, derive, template?_congr h, parentStems_congr h]
  by_cases hused : (s'.template? id).isSome = true
  · rw [if_pos hused, if_pos hused]
    exact h
  · rw [if_neg hused, if_neg hused]
    cases s'.parentStems (some parent) with
    | error refusal => exact h
    | ok inherited => simp only [add, h]

theorem setNames_templates_congr (h : s.templates = s'.templates) (id : String)
    (names : List String) :
    (s.setNames id names).2.templates = (s'.setNames id names).2.templates := by
  rw [setNames, setNames, template?_congr h]
  cases s'.template? id with
  | none => exact h
  | some template =>
      dsimp only
      rw [isShared_congr h, parentStems_congr h]
      by_cases hshared : s'.isShared id = true
      · rw [if_pos hshared, if_pos hshared]
        exact h
      · rw [if_neg hshared, if_neg hshared]
        by_cases hempty : names.isEmpty = true
        · rw [if_pos hempty, if_pos hempty]
          exact h
        · rw [if_neg hempty, if_neg hempty]
          cases s'.parentStems template.parent with
          | error refusal => exact h
          | ok inherited => simp only [Session.rename, h]

/-- What an edit makes of the templates depends on the templates alone. -/
theorem perform_templates_congr (h : s.templates = s'.templates) (hedit : action.isEdit = true) :
    (s.perform action).2.templates = (s'.perform action).2.templates := by
  cases action with
  | create id origin options => exact create_templates_congr h id origin options
  | derive id parent name => exact derive_templates_congr h id parent name
  | rename id names => exact setNames_templates_congr h id names
  | _ => cases hedit

end Actions

/-! ## Runs -/

section Runs

variable {s s' : Session}

theorem run_cons (s : Session) (action : Action) (actions : List Action) :
    (s.run (action :: actions)).2 = ((s.perform action).2.run actions).2 := rfl

/-- Every run keeps a session sound. -/
theorem Sound.run (hs : s.Sound) (actions : List Action) : (s.run actions).2.Sound := by
  induction actions generalizing s with
  | nil => exact hs
  | cons action actions ih =>
      rw [run_cons]
      exact ih (hs.perform action)

/-- Compiling and rendering edit nothing, however often it is done. -/
theorem Sound.unedited_run (hs : s.Sound) {actions : List Action}
    (h : ∀ action ∈ actions, action.isUse = true) : Unedited s (s.run actions).2 := by
  induction actions generalizing s with
  | nil => exact hs.unedited
  | cons action actions ih =>
      rw [List.forall_mem_cons] at h
      rw [run_cons]
      exact (hs.unedited_perform h.1).trans (ih (hs.perform action) h.2)

/-- The templates after a run are those after its edits alone. -/
theorem Sound.run_templates (hs : s.Sound) (h : s.templates = s'.templates)
    (actions : List Action) :
    (s.run actions).2.templates = (s'.run (actions.filter Action.isEdit)).2.templates := by
  induction actions generalizing s s' with
  | nil => exact h
  | cons action actions ih =>
      cases hedit : action.isEdit with
      | true =>
          rw [List.filter_cons_of_pos hedit, run_cons, run_cons]
          exact ih (hs.perform action) (perform_templates_congr h hedit)
      | false =>
          rw [List.filter_cons_of_neg (by simp [hedit]), run_cons]
          exact ih (hs.perform action) ((hs.perform_templates hedit).trans h)

/-- The helpers of the first session of a run in which they are final, or of its last
session if they are still open there. -/
def helpersAtFreeze (s : Session) : List Action → Table Helper
  | [] => s.registry.helpers
  | action :: actions =>
    if s.registry.isFrozen then s.registry.helpers
    else helpersAtFreeze (s.perform action).2 actions

/-- Final helpers stay final throughout a run. -/
theorem Sound.run_registry (hs : s.Sound) (h : s.registry.isFrozen = true)
    (actions : List Action) : (s.run actions).2.registry = s.registry := by
  induction actions generalizing s with
  | nil => rfl
  | cons action actions ih =>
      have hnext := hs.perform_registry h action
      rw [run_cons, ih (hs.perform action) (by rw [hnext]; exact h), hnext]

/-- A run ends with the helpers that it had when they became final. -/
theorem Sound.helpersAtFreeze_eq (hs : s.Sound) (actions : List Action) :
    s.helpersAtFreeze actions = (s.run actions).2.registry.helpers := by
  induction actions generalizing s with
  | nil => rfl
  | cons action actions ih =>
      rw [helpersAtFreeze]
      split
      · rw [hs.run_registry ‹_›]
      · rw [ih (hs.perform action), run_cons]

end Runs

/-! ## Answers -/

/-- Two templates, each in a session of its own, that rendering does not tell apart. -/
def SameAnswers (s : Session) (id : String) (s' : Session) (id' : String) : Prop :=
  (s.perform (.render id)).1 = (s'.perform (.render id')).1 ∧
    ∀ name, (s.perform (.renderElement id name)).1 = (s'.perform (.renderElement id' name)).1

section Answers

variable {s s' : Session} {id id' : String}

/-- The identifier has no part in what is rendered. -/
theorem compileAfresh_id {helpers : Table Helper} {chain : List Generation} (h : chain ≠ []) :
    compileAfresh helpers id chain = compileAfresh helpers id' chain := by
  unfold compileAfresh
  cases hchain : compileChain helpers (chain.map (·.nodes)).reverse with
  | error stop => rfl
  | ok result =>
      cases result with
      | none => exact absurd rfl (compileChain_ne_none hchain (by simpa using h))
      | some compiled => rfl

/-- Templates with one compiled form, or one mistake, and with the same stems answer alike. -/
theorem Sound.sameAnswers_of_forms (hs : s.Sound) (hs' : s'.Sound)
    (hcompile : compileAfresh s.registry.helpers id (s.chain id) =
      compileAfresh s'.registry.helpers id' (s'.chain id'))
    (hstems : chainStems (s.chain id) = chainStems (s'.chain id')) :
    SameAnswers s id s' id' := by
  constructor
  · have hleft := (hs.renderTemplate id).1
    have hright := (hs'.renderTemplate id').1
    rw [renderAfresh, hcompile, hstems] at hleft
    exact hleft.trans hright.symm
  · intro name
    have hleft := (hs.renderElementOf id name).1
    have hright := (hs'.renderElementOf id' name).1
    rw [renderElementAfresh, hcompile, hstems] at hleft
    exact hleft.trans hright.symm

/-- Templates with one chain answer alike. -/
theorem Sound.sameAnswers (hs : s.Sound) (hs' : s'.Sound)
    (hhelpers : s.registry.helpers = s'.registry.helpers) (hchain : s.chain id = s'.chain id')
    (hid : id = id' ∨ s'.chain id' ≠ []) : SameAnswers s id s' id' := by
  apply hs.sameAnswers_of_forms hs'
  · rw [hhelpers, hchain]
    rcases hid with rfl | hne
    · rfl
    · exact compileAfresh_id hne
  · rw [hchain]

/-- Compiling and rendering in between change no answer. -/
theorem Sound.sameAnswers_run (hs : s.Sound) {uses : List Action}
    (h : ∀ action ∈ uses, action.isUse = true) : SameAnswers (s.run uses).2 id s id := by
  have hunedited := hs.unedited_run h
  exact hunedited.sound.sameAnswers hs hunedited.helpers (by rw [hunedited.chain]) (.inl rfl)

/-- A template that is given names answers like a new one with the same document, the same
parent and these names. -/
theorem Sound.sameAnswers_rename (hs : s.Sound) {template : Template}
    (htemplate : s.template? id = some template) (hshared : s.isShared id = false)
    {names : List String} (hnames : names ≠ []) {other : String}
    (hother : s.template? other = none) {block : Block}
    (hblock : block.content = template.nodes) :
    ∃ stems renamed built, s.perform (.rename id names) = (.ok (.stems stems), renamed) ∧
      s.perform (.create other (.block block) ⟨template.parent, none, some names⟩) =
        (.ok .done, built) ∧
      SameAnswers renamed id built other := by
  obtain ⟨inherited, hinherited⟩ := hs.exists_parentStems htemplate
  refine ⟨_, _, _, setNames_eq htemplate hshared hinherited hnames,
    create_block hother hinherited hnames block, ?_⟩
  refine (hs.rename htemplate hshared hinherited names).sameAnswers
    (hs.add_classStems hother hinherited (some block) names) rfl ?_ (.inr ?_)
  · rw [hs.chain_rename_self htemplate hshared, chain_add_self, ← hblock]
    rfl
  · rw [chain_add_self]
    exact List.cons_ne_nil _ _

/-- A derived template that is given a name answers like one that is derived with this
name. -/
theorem Sound.sameAnswers_rename_derived (hs : s.Sound) {template : Template}
    (htemplate : s.template? id = some template) (hshared : s.isShared id = false)
    (hblock : template.block = none) {parent : String} (hparent : template.parent = some parent)
    (name : String) {other : String} (hother : s.template? other = none) :
    ∃ stems renamed built, s.perform (.rename id [name]) = (.ok (.stems stems), renamed) ∧
      s.perform (.derive other parent name) = (.ok .done, built) ∧
      SameAnswers renamed id built other := by
  obtain ⟨inherited, hinherited⟩ := hs.exists_parentStems htemplate
  refine ⟨_, _, _, setNames_eq htemplate hshared hinherited (List.cons_ne_nil _ _),
    derive_eq hother (hparent ▸ hinherited) name, ?_⟩
  refine (hs.rename htemplate hshared hinherited [name]).sameAnswers
    (hs.add_classStems hother (hparent ▸ hinherited) none [name]) rfl ?_ (.inr ?_)
  · rw [hs.chain_rename_self htemplate hshared, chain_add_self, hparent,
      show template.nodes = [] by rw [Template.nodes, hblock]]
    rfl
  · rw [chain_add_self]
    exact List.cons_ne_nil _ _

/-- After any run, rendering a template or one of its elements answers as compiling its chain
afresh does, with the names that the chain has at the moment and the helpers that were there
when they became final.  The chain is what the edits of the run make of it.  What has been
compiled or rendered in between, and whether that failed, is of no account; and a template
that gets other names answers like one that is made with them. -/
theorem answers_afresh (actions : List Action) (id : String) :
    let s := (Session.initial.run actions).2
    let helpers := Session.initial.helpersAtFreeze actions
    let chain := (Session.initial.run (actions.filter Action.isEdit)).2.chain id
    s.chain id = chain ∧
      (s.perform (.render id)).1 = renderAfresh helpers id chain ∧
      (∀ name, (s.perform (.renderElement id name)).1 =
        renderElementAfresh helpers id chain name) ∧
      (∀ uses, (∀ action ∈ uses, action.isUse = true) → SameAnswers (s.run uses).2 id s id) ∧
      ∀ template, s.template? id = some template → s.isShared id = false →
        ∀ other, s.template? other = none →
          (∀ names block, names ≠ [] → block.content = template.nodes →
            ∃ stems renamed built, s.perform (.rename id names) = (.ok (.stems stems), renamed) ∧
              s.perform (.create other (.block block) ⟨template.parent, none, some names⟩) =
                (.ok .done, built) ∧
              SameAnswers renamed id built other) ∧
          ∀ name parent, template.block = none → template.parent = some parent →
            ∃ stems renamed built, s.perform (.rename id [name]) = (.ok (.stems stems), renamed) ∧
              s.perform (.derive other parent name) = (.ok .done, built) ∧
              SameAnswers renamed id built other := by
  intro s helpers chain
  have hs : s.Sound := Sound.initial.run actions
  have hhelpers : helpers = s.registry.helpers := Sound.initial.helpersAtFreeze_eq actions
  have hchain : s.chain id = chain := by
    have htemplates := Sound.initial.run_templates rfl actions
    rw [Session.chain, htemplates, ← Session.chain]
  refine ⟨hchain, ?_, fun name => ?_, fun uses huses => hs.sameAnswers_run huses, ?_⟩
  · rw [hhelpers, ← hchain]
    exact (hs.renderTemplate id).1
  · rw [hhelpers, ← hchain]
    exact (hs.renderElementOf id name).1
  · intro template htemplate hshared other hother
    exact ⟨fun names block hnames hblock =>
        hs.sameAnswers_rename htemplate hshared hnames hother hblock,
      fun name parent hblock hparent =>
        hs.sameAnswers_rename_derived htemplate hshared hblock hparent name hother⟩

end Answers

/-! ## A template that is renamed after its use -/

/-- A heading with a name. -/
def titleBlock : Block :=
  ⟨none, some "card", [.element ⟨⟨false, some "h1", some [some "title"], none⟩, none, ⟨0, ""⟩⟩],
    ⟨0, ""⟩⟩

/-- A run in which a template is rendered before a helper is registered and another template
is derived from it. -/
def derivedTitle : List Action :=
  [.create "card" (.block titleBlock) ⟨none, none, none⟩, .render "card",
    .register "late" .nothing, .derive "small" "card" "small", .compile "small"]

theorem derivedTitle_answers_afresh :
    ∃ stems renamed built,
      (Session.initial.run derivedTitle).2.perform (.rename "small" ["big", "wide"]) =
          (.ok (.stems stems), renamed) ∧
        (Session.initial.run derivedTitle).2.perform (.create "other"
            (.block ⟨none, none, [], ⟨0, ""⟩⟩) ⟨some "card", none, some ["big", "wide"]⟩) =
          (.ok .done, built) ∧
        SameAnswers renamed "small" built "other" := by
  have htemplates : (Session.initial.run derivedTitle).2.templates =
      [("small", ⟨none, some "card", ["small"], ["small__", "card__", ""]⟩),
        ("card", ⟨some titleBlock, none, ["card"], ["card__", ""]⟩)] :=
    (Sound.initial.run_templates rfl derivedTitle).trans rfl
  obtain ⟨-, -, -, -, hrename⟩ := answers_afresh derivedTitle "small"
  refine (hrename ⟨none, some "card", ["small"], ["small__", "card__", ""]⟩ ?_ ?_ "other" ?_).1
    ["big", "wide"] ⟨none, none, [], ⟨0, ""⟩⟩ (List.cons_ne_nil _ _) rfl
  · rw [template?, htemplates]
    rfl
  · rw [isShared, htemplates]
    rfl
  · rw [template?, htemplates]
    rfl

end Session

end BemMarkup

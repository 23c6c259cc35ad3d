import BemMarkup.Proofs.Session.Memory

/-!
# The registry freezes once and for all

Helpers are taken until a template is used for the first time, that is, until it is compiled or
something of it is rendered.  The outcome of this use does not matter: the registry is final
before the topmost template of the chain is looked at, so it is final too if that template or a
later one has a mistake.  Nothing else makes the registry final, and nothing changes it
afterwards.

So the helpers of a run are those that are registered before its first use of a template, and of
several ones with one name the last.  All that is compiled in the run is compiled with them.

## Main definitions

* `Session.uses`: whether an action is the use of a template.
* `Session.registrations`: the helpers that are registered before the first use.

## Main results

* `Session.Sound.registry_of_uses`: using a template makes the helpers final.
* `Session.perform_of_not_uses`: what an action does that uses no template.
* `Session.Sound.run_isFrozen_iff`: the registry is final after the first use, and not before.
* `Session.Sound.run_helpers`: the helpers of a run are those that it has registered.
-/

namespace BemMarkup

open Document Template

/-! ## Registrations -/

/-- The table in which one name after the other has the value that is given for it. -/
def Template.Table.insertAll {α : Type} (table : Table α) (pairs : List (String × α)) : Table α :=
  pairs.foldl (fun table pair => table.insert pair.1 pair.2) table

/-- Of the values that are given for a name the last one counts. -/
theorem Template.Table.get?_insertAll {α : Type} (table : Table α) (pairs : List (String × α))
    (name : String) :
    (table.insertAll pairs).get? name = (pairs.reverse.lookup name).or (table.get? name) := by
  induction pairs generalizing table with
  | nil => rfl
  | cons pair pairs ih =>
      rw [Table.insertAll, List.foldl_cons, ← Table.insertAll, ih, Table.get?_insert,
        List.reverse_cons, List.lookup_append, List.lookup_cons]
      by_cases hname : name = pair.1
      · simp [hname]
      · have hbeq : (name == pair.1) = false := by simpa using hname
        simp [hname, hbeq]

/-- The helper that an action gives to the registry, as long as helpers are taken. -/
def Action.registration? : Action → Option (String × Helper)
  | .register name recipe => recipe.build.toOption.map fun helper => (name, helper)
  | _ => none

/-! ## Uses -/

/-- The template that an action compiles or renders something of. -/
def Action.used? : Action → Option String
  | .compile id | .render id | .renderElement id _ => some id
  | _ => none

/-- Whether an action uses a template of the session. -/
def Session.uses (s : Session) (action : Action) : Bool :=
  (action.used?.bind s.template?).isSome

namespace Session

section Uses

variable {s : Session} {id : String} {template : Template} {action : Action}

theorem exists_template_of_uses (h : s.uses action = true) :
    ∃ id template, action.used? = some id ∧ s.template? id = some template := by
  obtain ⟨template, h⟩ := Option.isSome_iff_exists.1 h
  obtain ⟨id, hused, htemplate⟩ := Option.bind_eq_some_iff.1 h
  exact ⟨id, template, hused, htemplate⟩

theorem compileNow_registry (s : Session) (id : String) (template : Template)
    (parent : Option Compiled) :
    (s.compileNow id template parent).2.registry = s.registry.freeze := by
  have hfreeze := freeze_registry (s.record (.compiling template.blockNames))
  rw [compileNow]
  split
  · exact hfreeze
  · exact hfreeze

/-- Asking for a compiled form makes the helpers final, whatever comes of it. -/
theorem Sound.obtainFrom_registry (hs : s.Sound) (id : String) (template : Template)
    (ancestors : List (String × Template)) :
    (s.obtainFrom id template ancestors).2.registry = s.registry.freeze := by
  induction ancestors generalizing id template with
  | nil =>
      rw [Session.obtainFrom]
      split
      · exact (Registry.freeze_of_frozen (hs.frozen ‹_›)).symm
      · exact compileNow_registry s id template none
  | cons ancestor ancestors ih =>
      have hparent := ih ancestor.1 ancestor.2
      rw [Session.obtainFrom]
      split
      · exact (Registry.freeze_of_frozen (hs.frozen ‹_›)).symm
      · split
        · rename_i refusal next hnext
          rw [hnext] at hparent
          exact hparent
        · rename_i compiled next hnext
          rw [hnext] at hparent
          rw [compileNow_registry, show next.registry = s.registry.freeze from hparent,
            Registry.freeze_freeze]

/-- A template that exists is asked for together with its ancestors. -/
theorem exists_obtain_snd_eq (h : s.template? id = some template) :
    ∃ ancestors, lineage s.templates id = (id, template) :: ancestors ∧
      (s.obtain id).2 = (s.obtainFrom id template ancestors).2 := by
  obtain ⟨ancestors, hlineage⟩ := exists_lineage_of_lookup h
  refine ⟨ancestors, hlineage, ?_⟩
  rw [obtain, hlineage]
  dsimp only
  split <;> simp_all

/-- An action that uses a template asks for its compiled form and does no more than to record
that it is rendered. -/
theorem perform_of_used? (h : action.used? = some id) :
    (s.perform action).2 = (s.obtain id).2 ∨
      ∃ found, (s.obtain id).1 = .ok found ∧
        (s.perform action).2 = (s.obtain id).2.record (.rendering found.1.blockNames) := by
  cases action with
  | compile other =>
      cases h
      rw [perform, compileTemplate]
      cases s.obtain id with
      | mk outcome next => cases outcome <;> exact .inl rfl
  | render other =>
      cases h
      rw [perform, renderTemplate]
      cases s.obtain id with
      | mk outcome next =>
          cases outcome with
          | error refusal => exact .inl rfl
          | ok found => exact .inr ⟨found, rfl, rfl⟩
  | renderElement other name =>
      cases h
      rw [perform, renderElementOf]
      cases s.obtain id with
      | mk outcome next => cases outcome <;> exact .inl rfl
  | _ => cases h

/-- The first use of a template makes the helpers final, also where it fails. -/
theorem Sound.registry_of_uses (hs : s.Sound) (h : s.uses action = true) :
    (s.perform action).2.registry = s.registry.freeze := by
  obtain ⟨id, template, hused, htemplate⟩ := exists_template_of_uses h
  obtain ⟨ancestors, -, hobtain⟩ := exists_obtain_snd_eq htemplate
  have hregistry : (s.obtain id).2.registry = s.registry.freeze := by
    rw [hobtain]
    exact hs.obtainFrom_registry id template ancestors
  obtain h | ⟨found, -, h⟩ := perform_of_used? hused
  · rw [h, hregistry]
  · rw [h]
    exact hregistry

theorem Sound.isFrozen_of_uses (hs : s.Sound) (h : s.uses action = true) :
    (s.perform action).2.registry.isFrozen = true := by
  rw [hs.registry_of_uses h, Registry.isFrozen_freeze]

/-- Without the template such an action has no effect. -/
theorem perform_of_template?_eq_none (h : action.used? = some id) (hnone : s.template? id = none) :
    (s.perform action).2 = s := by
  have hobtain : s.obtain id = (.error (.noTemplate id), s) := by
    rw [obtain, lineage_of_lookup_none hnone]
  obtain hperform | ⟨found, hfound, -⟩ := perform_of_used? h
  · rw [hperform, hobtain]
  · rw [hobtain] at hfound
    cases hfound

end Uses

/-! ## Other actions -/

/-- A later session with the same helpers and the same compiled forms, in which at most the parsing
of sources has been recorded. -/
structure Idle (s later : Session) : Prop where
  /-- The registry is the same. -/
  registry : later.registry = s.registry
  /-- So are the compiled forms. -/
  compiled : later.compiled = s.compiled
  /-- Sources may have been parsed. -/
  log : ∃ sizes : List Nat, later.log = s.log ++ sizes.map .parsing

section Others

variable {s : Session} {action : Action}

theorem Idle.refl (s : Session) : Idle s s := ⟨rfl, rfl, [], (List.append_nil _).symm⟩

theorem Idle.parsing (s : Session) (bytes : Nat) : Idle s (s.record (.parsing bytes)) :=
  ⟨rfl, rfl, [bytes], rfl⟩

theorem idle_blockOf (s : Session) : ∀ origin, Idle s (s.blockOf origin).2
  | .source text => .parsing s text.utf8ByteSize
  | .block _ => .refl s

theorem idle_buildHelper (s : Session) (recipe : Recipe) : Idle s (s.buildHelper recipe).2 := by
  cases recipe with
  | source text => exact .parsing s text.utf8ByteSize
  | _ => exact .refl s

theorem idle_create (s : Session) (id : String) (origin : Origin) (options : Options) :
    Idle s (s.create id origin options).2 := by
  have hblock := idle_blockOf s origin
  rw [create]
  split
  · exact .refl s
  · split
    · exact .refl s
    · split
      · rename_i refusal next hnext
        rwa [hnext] at hblock
      · rename_i block next hnext
        rw [hnext] at hblock
        split
        · exact hblock
        · exact ⟨hblock.registry, hblock.compiled, hblock.log⟩

/-- Making, renaming and inspecting templates is idle, and so is using one that does not
exist. -/
theorem idle_perform (h : s.uses action = false)
    (hregister : ∀ name recipe, action ≠ .register name recipe) : Idle s (s.perform action).2 := by
  have hused : ∀ {id}, action.used? = some id → Idle s (s.perform action).2 := by
    intro id hused
    have hnone : s.template? id = none := by simpa [uses, hused] using h
    rw [perform_of_template?_eq_none hused hnone]
    exact .refl s
  cases action with
  | compile id => exact hused rfl
  | render id => exact hused rfl
  | renderElement id name => exact hused rfl
  | create id origin options => exact idle_create s id origin options
  | derive id parent name =>
      obtain ⟨refusal, hderive⟩ | ⟨inherited, -, -, hderive⟩ := derive_cases s id parent name
      · rw [Session.perform, hderive]
        exact .refl s
      · rw [Session.perform, hderive]
        exact ⟨rfl, rfl, (Idle.refl s).log⟩
  | rename id names =>
      obtain ⟨refusal, hrename⟩ | ⟨template, inherited, -, -, -, hrename⟩ :=
        setNames_cases s id names
      · rw [Session.perform, hrename]
        exact .refl s
      · rw [Session.perform, hrename]
        exact ⟨rfl, rfl, (Idle.refl s).log⟩
  | describe id | document id =>
      rw [Session.perform, inspect]
      split
      · exact .refl s
      · exact .refl s
  | register name recipe => exact absurd rfl (hregister name recipe)
  | isFrozen => exact .refl s

/-- A helper is refused if its recipe has a mistake or if helpers are final.  Otherwise it is
taken and this is recorded. -/
theorem registerHelper_eq (s : Session) (name : String) (recipe : Recipe) :
    ∃ next, Idle s next ∧ s.registerHelper name recipe =
      match recipe.build, s.registry.isFrozen with
      | .error fault, _ => (.error (.failed (.parse fault)), next)
      | .ok _, true => (.error (.failed (.registryFrozen name)), next)
      | .ok helper, false => (.ok .done, { next.record (.registering name) with
          registry := ⟨s.registry.helpers.insert name helper, false⟩ }) := by
  have hidle := idle_buildHelper s recipe
  refine ⟨(s.buildHelper recipe).2, hidle, ?_⟩
  have hbuild : s.buildHelper recipe =
      (recipe.build.mapError fun fault => .failed (.parse fault), (s.buildHelper recipe).2) := rfl
  rw [registerHelper, hbuild]
  generalize (s.buildHelper recipe).2 = next at hidle
  cases recipe.build with
  | error fault => rfl
  | ok helper =>
      rw [mapError_ok]
      dsimp only
      rw [hidle.registry, Registry.register]
      cases s.registry.isFrozen with
      | true => rfl
      | false => rfl

/-- What an action does that uses no template: it leaves helpers and compiled forms as they are, or
it registers a helper and helpers are still taken. -/
theorem perform_of_not_uses (h : s.uses action = false) :
    (Idle s (s.perform action).2 ∧
        (s.registry.isFrozen = true ∨ action.registration? = none)) ∨
      ∃ name helper next, action.registration? = some (name, helper) ∧
        s.registry.isFrozen = false ∧ Idle s next ∧
        (s.perform action).2 = { next.record (.registering name) with
          registry := ⟨s.registry.helpers.insert name helper, false⟩ } := by
  cases action with
  | register name recipe =>
      obtain ⟨next, hnext, hregister⟩ := registerHelper_eq s name recipe
      rw [perform, hregister, Action.registration?]
      cases hbuild : recipe.build with
      | error fault => exact .inl ⟨hnext, .inr rfl⟩
      | ok helper =>
          cases hfrozen : s.registry.isFrozen with
          | true => exact .inl ⟨hnext, .inl rfl⟩
          | false => exact .inr ⟨name, helper, next, rfl, rfl, hnext, rfl⟩
  | _ => exact .inl ⟨idle_perform h fun _ _ => Action.noConfusion, .inr rfl⟩

end Others

/-! ## Runs -/

section Runs

variable {s : Session} {action : Action} {actions : List Action}

theorem run_nil (s : Session) : (s.run []).2 = s := rfl

theorem run_append (s : Session) (first rest : List Action) :
    (s.run (first ++ rest)).2 = ((s.run first).2.run rest).2 := by
  induction first generalizing s with
  | nil => rfl
  | cons action first ih => exact ih (s.perform action).2

/-- The helpers that a run registers, in order: those before the first use of a template. -/
def registrations (s : Session) : List Action → List (String × Helper)
  | [] => []
  | action :: actions =>
    if s.uses action then []
    else action.registration?.toList ++ (s.perform action).2.registrations actions

/-- As long as no template is used helpers are taken. -/
theorem isFrozen_of_not_uses (h : s.uses action = false) :
    (s.perform action).2.registry.isFrozen = s.registry.isFrozen := by
  obtain ⟨hidle, -⟩ | ⟨name, helper, next, -, hopen, -, hperform⟩ := perform_of_not_uses h
  · rw [hidle.registry]
  · rw [hperform, hopen]

/-- The registry is final after the first use of a template, whatever became of it, and it is
open until then. -/
theorem Sound.run_isFrozen_iff (hs : s.Sound) (hopen : s.registry.isFrozen = false) :
    (s.run actions).2.registry.isFrozen = true ↔
      ∃ before use after, actions = before ++ use :: after ∧ (s.run before).2.uses use = true := by
  induction actions generalizing s with
  | nil =>
      rw [run_nil, hopen]
      simp
  | cons action actions ih =>
      rw [run_cons]
      cases huses : s.uses action with
      | true =>
          have hfrozen := hs.isFrozen_of_uses huses
          rw [(hs.perform action).run_registry hfrozen, hfrozen]
          exact iff_of_true rfl ⟨[], action, actions, rfl, huses⟩
      | false =>
          rw [ih (hs.perform action) ((isFrozen_of_not_uses huses).trans hopen)]
          constructor
          · rintro ⟨before, use, after, rfl, h⟩
            exact ⟨action :: before, use, after, rfl, h⟩
          · rintro ⟨before, use, after, hsplit, h⟩
            cases before with
            | nil =>
                cases hsplit
                rw [run_nil, huses] at h
                cases h
            | cons first before =>
                cases hsplit
                exact ⟨before, use, after, rfl, h⟩

/-- A run has the helpers that it registers before it uses a template. -/
theorem Sound.run_helpers (hs : s.Sound) (hopen : s.registry.isFrozen = false) :
    (s.run actions).2.registry.helpers =
      s.registry.helpers.insertAll (s.registrations actions) := by
  induction actions generalizing s with
  | nil => rfl
  | cons action actions ih =>
      rw [run_cons, registrations]
      cases huses : s.uses action with
      | true =>
          rw [(hs.perform action).run_registry (hs.isFrozen_of_uses huses),
            hs.registry_of_uses huses]
          rfl
      | false =>
          have hnext := (isFrozen_of_not_uses huses).trans hopen
          rw [ih (hs.perform action) hnext]
          obtain ⟨hidle, hnone⟩ | ⟨name, helper, next, hsome, -, -, hperform⟩ :=
            perform_of_not_uses huses
          · rw [hidle.registry, hnone.resolve_left (by simp [hopen])]
            rfl
          · rw [hsome, hperform]
            rfl

end Runs

end Session

end BemMarkup

import Mathlib.Data.List.Nodup
import BemMarkup.Proofs.Session.Freezing

/-!
# What the log tells

Records of parsing, of the start of a compilation and of rendering come in between.  The others,
the `milestones`, come in a fixed order: first the registration of every helper, then, once, that
the registry is final, and then every template that has been compiled, its ancestors before it.

## Main definitions

* `Session.milestones`: the records about the registry and about compiled templates.
* `ParentsFirst`: the order in which templates are compiled.
* `Session.Chronicled`: the log tells what has been registered and compiled.

## Main results

* `Session.Chronicled.perform_of_uses`, `Session.Chronicled.perform_of_not_uses`: every action keeps
  the log in order.
* `Session.freezes_once`: the registry and the log of every run.
-/

namespace BemMarkup

open Document Template

/-! ## Milestones -/

/-- Whether a record is about the registry or about a compiled template. -/
def Event.isMilestone : Event → Bool
  | .frozen _ | .registering _ | .compiled _ _ => true
  | .parsing _ | .compiling _ | .rendering _ => false

/-- Identifiers of templates, the last one first, where each occurs once and behind it the parent
of the template. -/
inductive ParentsFirst (parentOf : String → Option String) : List String → Prop
  /-- No templates. -/
  | nil : ParentsFirst parentOf []
  /-- A template whose parent is there. -/
  | cons {id : String} {names : List String} : ParentsFirst parentOf names → id ∉ names →
      (∀ parent, parentOf id = some parent → parent ∈ names) → ParentsFirst parentOf (id :: names)

theorem ParentsFirst.nodup {parentOf : String → Option String} {names : List String}
    (h : ParentsFirst parentOf names) : names.Nodup := by
  induction h with
  | nil => exact List.nodup_nil
  | cons _ hnew _ ih => exact List.nodup_cons.2 ⟨hnew, ih⟩

theorem ParentsFirst.congr {parentOf parentOf' : String → Option String} {names : List String}
    (h : ParentsFirst parentOf names) (heq : ∀ id ∈ names, parentOf' id = parentOf id) :
    ParentsFirst parentOf' names := by
  induction h with
  | nil => exact .nil
  | cons _ hnew hparent ih =>
      rw [List.forall_mem_cons] at heq
      refine .cons (ih heq.2) hnew ?_
      rw [heq.1]
      exact hparent

/-- Where names occur once, every entry of a table is what its name has. -/
theorem Template.Table.get?_of_mem_entries {α : Type} {table : Table α} {name : String} {value : α}
    (hnodup : table.names.Nodup) (h : (name, value) ∈ table.entries) :
    table.get? name = some value := by
  obtain ⟨other, hget⟩ := exists_get?_of_mem_names (List.mem_map_of_mem h)
  have heq : (name, value) = (name, other) :=
    List.inj_on_of_nodup_map hnodup h (mem_entries_of_get? hget) rfl
  rw [(Prod.mk.inj heq).2]
  exact hget

namespace Session

/-! ## Sessions -/

/-- The records about the registry and about compiled templates. -/
def milestones (s : Session) : List Event := s.log.filter Event.isMilestone

/-- The parent of a template. -/
def parentOf? (s : Session) (id : String) : Option String := (s.template? id).bind (·.parent)

/-- The record of a template that has been compiled. -/
def compiledRecord (s : Session) (entry : String × Compiled) : Event :=
  .compiled entry.2.declaredCount (s.parentOf? entry.1).isSome

/-- The log tells of the given registrations, then that they are final, if they are, and then of
the compiled templates in an order that has parents first. -/
structure Chronicled (registered : List (String × Helper)) (s : Session) : Prop where
  /-- These are the milestones. -/
  milestones : s.milestones = registered.map (fun registration => .registering registration.1) ++
    (if s.registry.isFrozen then [.frozen s.registry.helpers.size] else []) ++
      s.compiled.entries.reverse.map s.compiledRecord
  /-- Parents come first. -/
  order : ParentsFirst s.parentOf? s.compiled.names
  /-- As long as helpers are taken, nothing is compiled. -/
  unused : s.registry.isFrozen = false → s.compiled.entries = []

theorem Chronicled.initial : Chronicled [] .initial := ⟨rfl, .nil, fun _ => rfl⟩

section Records

variable {s next : Session} {registered : List (String × Helper)}

@[simp] theorem milestones_record (s : Session) (event : Event) :
    (s.record event).milestones = s.milestones ++ [event].filter Event.isMilestone := by
  rw [milestones, record, List.filter_append, ← milestones]

theorem Idle.milestones (h : Idle s next) : next.milestones = s.milestones := by
  obtain ⟨sizes, hlog⟩ := h.log
  have hnone : (sizes.map Event.parsing).filter Event.isMilestone = [] := by
    simp [List.filter_eq_nil_iff, Event.isMilestone]
  rw [Session.milestones, hlog, List.filter_append, hnone, List.append_nil, ← Session.milestones]

/-- A session whose helpers, compiled forms and milestones are the same, and in which what is
compiled has the same parents, tells the same. -/
theorem Chronicled.congr (h : Chronicled registered s) (hregistry : next.registry = s.registry)
    (hcompiled : next.compiled = s.compiled) (hmilestones : next.milestones = s.milestones)
    (hparents : ∀ id ∈ s.compiled.names, next.parentOf? id = s.parentOf? id) :
    Chronicled registered next := by
  refine ⟨?_, ?_, ?_⟩
  · have hrecords : s.compiled.entries.reverse.map next.compiledRecord =
        s.compiled.entries.reverse.map s.compiledRecord := by
      refine List.map_congr_left fun entry hentry => ?_
      rw [compiledRecord, hparents _ (List.mem_map_of_mem (List.mem_reverse.1 hentry)),
        ← compiledRecord]
    rw [hmilestones, hregistry, hcompiled, hrecords, h.milestones]
  · rw [hcompiled]
    exact h.order.congr hparents
  · rw [hregistry, hcompiled]
    exact h.unused

/-- Records of other kinds are not told. -/
theorem Chronicled.record (h : Chronicled registered s) {event : Event}
    (hevent : event.isMilestone = false) : Chronicled registered (s.record event) := by
  refine h.congr rfl rfl ?_ fun _ _ => rfl
  rw [milestones_record, List.filter_cons_of_neg (by simp [hevent]), List.filter_nil,
    List.append_nil]

/-- While helpers are taken, a registration comes behind the other ones. -/
theorem Chronicled.register (h : Chronicled registered s) (hopen : s.registry.isFrozen = false)
    (name : String) (helper : Helper) :
    Chronicled (registered ++ [(name, helper)]) { s.record (.registering name) with
      registry := ⟨s.registry.helpers.insert name helper, false⟩ } := by
  have hnone := h.unused hopen
  have hmilestones := h.milestones
  rw [hopen, hnone] at hmilestones
  refine ⟨?_, h.order, fun _ => hnone⟩
  change (s.record (.registering name)).milestones = _ ++ _ ++ s.compiled.entries.reverse.map _
  rw [milestones_record, hmilestones, hnone]
  simp [Event.isMilestone]

/-- Once helpers are final nothing but compiled templates is added. -/
theorem Chronicled.freeze (h : Chronicled registered s) : Chronicled registered s.freeze := by
  rw [Session.freeze]
  cases hfrozen : s.registry.isFrozen with
  | true => exact h
  | false =>
      have hnone := h.unused hfrozen
      have hmilestones := h.milestones
      rw [hfrozen, hnone] at hmilestones
      refine ⟨?_, h.order, fun _ => hnone⟩
      change (s.record (.frozen s.registry.helpers.size)).milestones =
        _ ++ _ ++ s.compiled.entries.reverse.map _
      rw [milestones_record, hmilestones, hnone]
      simp [Event.isMilestone]

/-- A template can be kept behind its parent. -/
theorem Chronicled.remember (h : Chronicled registered s) (hfrozen : s.registry.isFrozen = true)
    {id : String} (hnew : id ∉ s.compiled.names)
    (hparent : ∀ parent, s.parentOf? id = some parent → parent ∈ s.compiled.names)
    (compiled : Compiled) :
    Chronicled registered
      ((s.record (.compiled compiled.declaredCount (s.parentOf? id).isSome)).remember id
        compiled) := by
  have hentries := Table.entries_insert_of_not_mem hnew compiled
  refine ⟨?_, ?_, fun hopen => absurd (hfrozen.symm.trans hopen) (by simp)⟩
  · change (s.record (s.compiledRecord (id, compiled))).milestones =
      _ ++ _ ++ (s.compiled.insert id compiled).entries.reverse.map s.compiledRecord
    rw [milestones_record, h.milestones, hentries, List.reverse_cons, List.map_append,
      ← List.append_assoc]
    rfl
  · change ParentsFirst s.parentOf? ((s.compiled.insert id compiled).entries.map (·.1))
    rw [hentries]
    exact h.order.cons hnew hparent

end Records

/-! ## Compiling -/

/-- An outcome of compiling a template, with the session after it: the log tells the same
registrations and now also of what has been compiled, which is at most the template and its
ancestors, and the template itself if this has succeeded. -/
structure Charted (registered : List (String × Helper)) (s : Session) (id : String)
    (result : Except Refusal Compiled × Session) : Prop where
  /-- The templates are the same. -/
  templates : result.2.templates = s.templates
  /-- The log is in order. -/
  chronicled : Chronicled registered result.2
  /-- A form that is given is kept. -/
  known : ∀ {compiled}, result.1 = .ok compiled → id ∈ result.2.compiled.names
  /-- Nothing is compiled but templates of the lineage. -/
  names : result.2.compiled.names ⊆ (lineage s.templates id).map (·.1) ++ s.compiled.names
  /-- What was compiled before stays. -/
  entries : s.compiled.entries <:+ result.2.compiled.entries

section Compiling

variable {s next : Session} {registered : List (String × Helper)} {id : String}
  {template : Template}

theorem parentOf?_congr (h : next.templates = s.templates) : next.parentOf? = s.parentOf? := by
  funext id
  rw [parentOf?, template?, h, ← template?, ← parentOf?]

theorem freeze_compiled (s : Session) : s.freeze.compiled = s.compiled := by
  rw [freeze]
  split <;> rfl

/-- The start of a compilation makes the helpers final and is itself no milestone. -/
theorem Chronicled.start (h : Chronicled registered s) (blocks : List String) :
    Chronicled registered (s.record (.compiling blocks)).freeze :=
  (h.record rfl).freeze

/-- A template is compiled, in order, in a session that has compiled its parent. -/
theorem Charted.compileNow (htemplates : next.templates = s.templates)
    (hchronicled : Chronicled registered next) (hnew : id ∉ next.compiled.names)
    (hnames : next.compiled.names ⊆ (lineage s.templates id).map (·.1) ++ s.compiled.names)
    (hentries : s.compiled.entries <:+ next.compiled.entries)
    (hid : id ∈ (lineage s.templates id).map (·.1))
    (hparent : ∀ parent, s.parentOf? id = some parent → parent ∈ next.compiled.names)
    {parent : Option Compiled} (hinherited : parent.isSome = (s.parentOf? id).isSome) :
    Charted registered s id (next.compileNow id template parent) := by
  have hstart := hchronicled.start template.blockNames
  have hcompiled : (next.record (.compiling template.blockNames)).freeze.compiled =
      next.compiled := freeze_compiled _
  have htemplates' : (next.record (.compiling template.blockNames)).freeze.templates =
      s.templates := (freeze_templates _).trans htemplates
  have hfrozen :
      (next.record (.compiling template.blockNames)).freeze.registry.isFrozen = true := by
    rw [freeze_registry]
    rfl
  rw [Session.compileNow]
  generalize (next.record (.compiling template.blockNames)).freeze = start at *
  rw [← hcompiled] at hnew hnames hentries hparent
  split
  · refine ⟨htemplates', hstart, fun h => ?_, hnames, hentries⟩
    cases h
  · rename_i compiled _
    have hkept := Table.entries_insert_of_not_mem hnew compiled
    rw [← parentOf?_congr htemplates'] at hparent hinherited
    rw [hinherited]
    refine ⟨htemplates', hstart.remember hfrozen hnew hparent compiled, fun _ => ?_, ?_, ?_⟩
    · exact Table.mem_names_insert_self
    · change (start.compiled.insert id compiled).entries.map (·.1) ⊆ _
      rw [hkept]
      exact List.cons_subset.2 ⟨List.mem_append_left _ hid, hnames⟩
    · change _ <:+ (start.compiled.insert id compiled).entries
      rw [hkept]
      exact hentries.trans (List.suffix_cons _ _)

/-- A form that is known is given as it is. -/
theorem Chronicled.charted_known (h : Chronicled registered s) {compiled : Compiled}
    (hget : s.compiled.get? id = some compiled) : Charted registered s id (.ok compiled, s) :=
  ⟨rfl, h, fun _ => Table.mem_names_of_get? hget, List.subset_append_right _ _,
    List.suffix_refl _⟩

/-- A template is compiled after its ancestors. -/
theorem Chronicled.obtainFrom (h : Chronicled registered s) (hordered : Ordered s.templates)
    {ancestors : List (String × Template)}
    (hlineage : lineage s.templates id = (id, template) :: ancestors) :
    Charted registered s id (s.obtainFrom id template ancestors) := by
  have hid : id ∈ (lineage s.templates id).map (·.1) := by simp [hlineage]
  induction ancestors generalizing id template with
  | nil =>
      have hparent : s.parentOf? id = none := by
        rw [parentOf?, show s.template? id = some template from (lookup_of_lineage hlineage).2]
        exact hordered.parent_eq_none hlineage
      rw [Session.obtainFrom]
      split
      · exact h.charted_known ‹_›
      · refine .compileNow rfl h (Table.not_mem_names_of_get? ‹_›)
          (List.subset_append_right _ _) (List.suffix_refl _) hid ?_ ?_
        · simp [hparent]
        · rw [hparent]
          rfl
  | cons ancestor ancestors ih =>
      obtain ⟨parentId, parent⟩ := ancestor
      obtain ⟨hp, hrest⟩ := hordered.lineage_tail hlineage
      have hparent : s.parentOf? id = some parentId := by
        rw [parentOf?, show s.template? id = some template from (lookup_of_lineage hlineage).2]
        exact hp
      have hcharted := ih hrest (by simp [hrest])
      -- the ancestors are not the template itself, so it is still not compiled after them
      have hnames : (lineage s.templates parentId).map (·.1) ++ s.compiled.names ⊆
          (lineage s.templates id).map (·.1) ++ s.compiled.names := by
        rw [hlineage, hrest]
        exact List.subset_cons_self _ _
      have hother : id ∉ (lineage s.templates parentId).map (·.1) := by
        have hnodup := hordered.nodup_lineage id
        rw [hlineage, List.map_cons, List.nodup_cons] at hnodup
        rw [hrest]
        exact hnodup.1
      rw [Session.obtainFrom]
      split
      · exact h.charted_known ‹_›
      · rename_i hget
        have hnew := Table.not_mem_names_of_get? hget
        split
        · rename_i refusal next hnext
          rw [hnext] at hcharted
          refine ⟨hcharted.templates, hcharted.chronicled, fun h => ?_,
            List.Subset.trans hcharted.names hnames, hcharted.entries⟩
          cases h
        · rename_i compiled next hnext
          rw [hnext] at hcharted
          refine .compileNow hcharted.templates hcharted.chronicled ?_
            (List.Subset.trans hcharted.names hnames) hcharted.entries hid ?_ ?_
          · intro hmem
            exact (List.mem_append.1 (hcharted.names hmem)).elim hother hnew
          · intro other hother
            cases hparent.symm.trans hother
            exact hcharted.known rfl
          · rw [hparent]
            rfl

end Compiling

/-! ## Actions -/

section Actions

variable {s : Session} {registered : List (String × Helper)} {action : Action}

/-- No action gives a template another parent. -/
theorem Sound.perform_parentOf? (hs : s.Sound) {id : String} {template : Template}
    (h : s.template? id = some template) (action : Action) :
    (s.perform action).2.parentOf? id = s.parentOf? id := by
  cases hedit : action.isEdit with
  | false => rw [parentOf?_congr (hs.perform_templates hedit)]
  | true =>
      cases action with
      | create other origin options =>
          obtain ⟨log, ⟨refusal, hcreate⟩ | ⟨block, names, inherited, hnew, -, hcreate⟩⟩ :=
            create_cases s other origin options
          · rw [Session.perform, hcreate]
            rfl
          · rw [Session.perform, hcreate, parentOf?, template?_add_of_ne (ne_of_lookup hnew h)]
            rfl
      | derive other parent name =>
          obtain ⟨refusal, hderive⟩ | ⟨inherited, hnew, -, hderive⟩ :=
            derive_cases s other parent name
          · rw [Session.perform, hderive]
          · rw [Session.perform, hderive, parentOf?, template?_add_of_ne (ne_of_lookup hnew h)]
            rfl
      | rename other names =>
          obtain ⟨refusal, hrename⟩ | ⟨renamed, inherited, -, -, -, hrename⟩ :=
            setNames_cases s other names
          · rw [Session.perform, hrename]
          · rw [Session.perform, hrename, parentOf?, parentOf?, template?_rename, h,
              Option.map_some, Option.bind_some, Option.bind_some, retitle_parent]
      | _ => cases hedit

/-- Using a template keeps the log in order, whatever becomes of it. -/
theorem Chronicled.perform_of_uses (h : Chronicled registered s) (hs : s.Sound)
    (huses : s.uses action = true) :
    Chronicled registered (s.perform action).2 ∧
      s.compiled.entries <:+ (s.perform action).2.compiled.entries := by
  obtain ⟨id, template, hused, htemplate⟩ := exists_template_of_uses huses
  obtain ⟨ancestors, hlineage, hobtain⟩ := exists_obtain_snd_eq htemplate
  have hcharted := h.obtainFrom hs.ordered hlineage
  obtain hperform | ⟨found, -, hperform⟩ := perform_of_used? hused
  · rw [hperform, hobtain]
    exact ⟨hcharted.chronicled, hcharted.entries⟩
  · rw [hperform, hobtain]
    exact ⟨hcharted.chronicled.record rfl, hcharted.entries⟩

/-- So does every other action, and it adds a helper that it registers. -/
theorem Chronicled.perform_of_not_uses (h : Chronicled registered s) (hs : s.Sound)
    (huses : s.uses action = false) :
    Chronicled
        (registered ++ if s.registry.isFrozen then [] else action.registration?.toList)
        (s.perform action).2 ∧
      s.compiled.entries <:+ (s.perform action).2.compiled.entries := by
  have hparents : ∀ id ∈ s.compiled.names, (s.perform action).2.parentOf? id = s.parentOf? id := by
    intro id hid
    obtain ⟨compiled, hget⟩ := Table.exists_get?_of_mem_names hid
    obtain ⟨template, htemplate⟩ := hs.exists_template hget
    exact hs.perform_parentOf? htemplate action
  obtain ⟨hidle, hnone⟩ | ⟨name, helper, next, hsome, hopen, hidle, hperform⟩ :=
    Session.perform_of_not_uses huses
  · have hmore : (if s.registry.isFrozen then [] else action.registration?.toList) = [] := by
      obtain hfrozen | hnone := hnone
      · rw [if_pos hfrozen]
      · rw [hnone, Option.toList_none, ite_self]
    rw [hmore, List.append_nil, hidle.compiled]
    exact ⟨h.congr hidle.registry hidle.compiled hidle.milestones hparents, List.suffix_refl _⟩
  · rw [hopen, hsome]
    rw [hperform] at hparents ⊢
    have hnext : Chronicled registered next :=
      h.congr hidle.registry hidle.compiled hidle.milestones hparents
    rw [← hidle.registry, ← hidle.compiled]
    exact ⟨hnext.register (by rw [hidle.registry, hopen]) name helper, List.suffix_refl _⟩

end Actions

/-! ## Runs -/

section Runs

variable {s : Session} {registered : List (String × Helper)}

theorem Chronicled.run_of_frozen (h : Chronicled registered s) (hs : s.Sound)
    (hfrozen : s.registry.isFrozen = true) (actions : List Action) :
    Chronicled registered (s.run actions).2 ∧
      s.compiled.entries <:+ (s.run actions).2.compiled.entries := by
  induction actions generalizing s with
  | nil => exact ⟨h, List.suffix_refl _⟩
  | cons action actions ih =>
      have hstep : Chronicled registered (s.perform action).2 ∧
          s.compiled.entries <:+ (s.perform action).2.compiled.entries := by
        cases huses : s.uses action with
        | true => exact h.perform_of_uses hs huses
        | false => simpa [hfrozen] using h.perform_of_not_uses hs huses
      have hnext : (s.perform action).2.registry.isFrozen = true := by
        rw [hs.perform_registry hfrozen, hfrozen]
      obtain ⟨hrun, hentries⟩ := ih hstep.1 (hs.perform action) hnext
      rw [run_cons]
      exact ⟨hrun, hstep.2.trans hentries⟩

/-- Throughout a run the log tells of what has been registered and compiled. -/
theorem Chronicled.run (h : Chronicled registered s) (hs : s.Sound)
    (hopen : s.registry.isFrozen = false) (actions : List Action) :
    Chronicled (registered ++ s.registrations actions) (s.run actions).2 ∧
      s.compiled.entries <:+ (s.run actions).2.compiled.entries := by
  induction actions generalizing s registered with
  | nil =>
      rw [registrations, List.append_nil]
      exact ⟨h, List.suffix_refl _⟩
  | cons action actions ih =>
      rw [run_cons, registrations]
      cases huses : s.uses action with
      | true =>
          have hstep := h.perform_of_uses hs huses
          have hfrozen := hs.isFrozen_of_uses huses
          obtain ⟨hrun, hentries⟩ := hstep.1.run_of_frozen (hs.perform action) hfrozen actions
          rw [if_pos rfl, List.append_nil]
          exact ⟨hrun, hstep.2.trans hentries⟩
      | false =>
          have hstep := h.perform_of_not_uses hs huses
          rw [hopen, if_neg Bool.false_ne_true] at hstep
          obtain ⟨hrun, hentries⟩ :=
            ih hstep.1 (hs.perform action) ((isFrozen_of_not_uses huses).trans hopen)
          rw [if_neg Bool.false_ne_true, ← List.append_assoc]
          exact ⟨hrun, hstep.2.trans hentries⟩

/-- What has been compiled stays. -/
theorem Chronicled.entries_run (h : Chronicled registered s) (hs : s.Sound)
    (actions : List Action) : s.compiled.entries <:+ (s.run actions).2.compiled.entries := by
  cases hfrozen : s.registry.isFrozen with
  | true => exact (h.run_of_frozen hs hfrozen actions).2
  | false => exact (h.run hs hfrozen actions).2

/-- Behind a template come all its ancestors. -/
theorem mem_of_ancestor (hordered : Ordered s.templates) {names : List String}
    (h : ParentsFirst s.parentOf? names) {later earlier : List String} {id : String}
    (hnames : names = later ++ id :: earlier) {ancestor : String × Template}
    (hancestor : ancestor ∈ (lineage s.templates id).tail) : ancestor.1 ∈ earlier := by
  induction h generalizing later earlier id with
  | nil => simp at hnames
  | @cons first names _ _ hparent ih =>
      cases later with
      | cons other later =>
          cases hnames
          exact ih rfl hancestor
      | nil =>
          cases hnames
          obtain ⟨child, parent, hlookup, hp, hmem⟩ := hordered.exists_parent_of_mem_tail hancestor
          have hparent : parent ∈ names := by
            refine hparent parent ?_
            rw [parentOf?, template?, hlookup]
            exact hp
          obtain hself | htail := eq_or_mem_tail_of_mem_lineage hmem
          · rw [hself]
            exact hparent
          · obtain ⟨between, before, hsplit⟩ := List.append_of_mem hparent
            rw [hsplit]
            exact List.mem_append_right _ (List.mem_cons_of_mem _ (ih hsplit htail))

/-- In every run the registry is final after the first use of a template, whatever becomes of this
use, and not before.  From then on it stays as it is and every helper is refused under its name.
All compilations work with one table of helpers, in which a name has the helper that was
registered last before the first use, or else the one that was there at the start.

Of the records about the registry and about compiled templates, those of the registrations come
first, then at most one that the registry is final, and then one for each template that is
compiled, after those of its ancestors. -/
theorem freezes_once (actions : List Action) :
    let s := (Session.initial.run actions).2
    let registered := Session.initial.registrations actions
    let helpers := s.registry.helpers
    let history := s.compiled.entries.reverse
    (s.registry.isFrozen = true ↔ ∃ before use after, actions = before ++ use :: after ∧
        (Session.initial.run before).2.uses use = true) ∧
      (s.registry.isFrozen = true → (∀ more, (s.run more).2.registry = s.registry) ∧
        ∀ name recipe helper, recipe.build = .ok helper →
          (s.perform (.register name recipe)).1 = .error (.failed (.registryFrozen name))) ∧
      (∀ name, helpers.get? name =
        (registered.reverse.lookup name).or (Registry.initial.helpers.get? name)) ∧
      (∀ before use after id, actions = before ++ use :: after → use.used? = some id →
        let t := (Session.initial.run before).2
        t.uses use = true → t.registry.helpers = helpers ∧
          (t.obtain id).1.map (·.2) = compileAfresh helpers id (t.chain id)) ∧
      s.log.filter Event.isMilestone =
        registered.map (fun registration => .registering registration.1) ++
          (if s.registry.isFrozen then [.frozen helpers.size] else []) ++
            history.map s.compiledRecord ∧
      (∀ before after, actions = before ++ after →
        (Session.initial.run before).2.compiled.entries.reverse <+: history) ∧
      (history.map (·.1)).Nodup ∧
      ∀ earlier id form later, history = earlier ++ (id, form) :: later →
        compileAfresh helpers id (s.chain id) = .ok form ∧
          ∀ ancestor ∈ (lineage s.templates id).tail, ancestor.1 ∈ earlier.map (·.1) := by
  intro s registered helpers history
  have hs : s.Sound := Sound.initial.run actions
  have hchronicled : Chronicled registered s :=
    (Chronicled.initial.run Sound.initial rfl actions).1
  have hnodup : s.compiled.names.Nodup := hchronicled.order.nodup
  refine ⟨Sound.initial.run_isFrozen_iff rfl, fun hfrozen => ⟨fun more => ?_, ?_⟩, ?_, ?_,
    hchronicled.milestones, ?_, ?_, ?_⟩
  · exact hs.run_registry hfrozen more
  · intro name recipe helper hbuild
    obtain ⟨next, -, hregister⟩ := registerHelper_eq s name recipe
    rw [Session.perform, hregister, hbuild, hfrozen]
  · intro name
    rw [show helpers = _ from Sound.initial.run_helpers rfl, Table.get?_insertAll]
    rfl
  · intro before use after id hsplit hused t huses
    have ht : t.Sound := Sound.initial.run before
    have hhelpers : t.registry.helpers = helpers := by
      have hlast : s = ((t.perform use).2.run after).2 := by
        rw [← run_cons, ← run_append, ← hsplit]
      have hfinal := (ht.perform use).run_registry (ht.isFrozen_of_uses huses) after
      rw [show helpers = s.registry.helpers from rfl, hlast, hfinal, ht.registry_of_uses huses,
        Registry.helpers_freeze]
    refine ⟨hhelpers, ?_⟩
    rw [← hhelpers]
    exact ht.obtain_fst id
  · intro before after hsplit
    have hbefore : Chronicled (Session.initial.registrations before)
        (Session.initial.run before).2 := (Chronicled.initial.run Sound.initial rfl before).1
    have hentries := hbefore.entries_run (Sound.initial.run before) after
    rw [← run_append, ← hsplit] at hentries
    exact List.reverse_prefix.2 hentries
  · rw [List.map_reverse]
    exact List.nodup_reverse.2 hnodup
  · intro earlier id form later hhistory
    have hentries : s.compiled.entries = later.reverse ++ (id, form) :: earlier.reverse := by
      rw [← List.reverse_reverse s.compiled.entries]
      exact (congrArg List.reverse hhistory).trans (by simp)
    constructor
    · refine hs.compiled (Table.get?_of_mem_entries hnodup ?_)
      rw [hentries]
      exact List.mem_append_right _ List.mem_cons_self
    · intro ancestor hancestor
      have hnames : s.compiled.names =
          later.reverse.map (·.1) ++ id :: earlier.reverse.map (·.1) := by
        rw [Table.names, hentries, List.map_append, List.map_cons]
      have hmem := mem_of_ancestor hs.ordered hchronicled.order hnames hancestor
      simpa using hmem

/-- A run that registers a helper, uses a derived template, registers another helper too late and
uses the template that the first one is derived from. -/
def lateHelper : List Action :=
  [.register "note" .nothing, .create "card" (.block titleBlock) ⟨none, none, none⟩,
    .derive "small" "card" "small", .render "small", .register "late" .content, .compile "card"]

theorem lateHelper_is_refused :
    let s := (Session.initial.run lateHelper).2
    s.registry.isFrozen = true ∧
      (s.perform (.register "late" .content)).1 = .error (.failed (.registryFrozen "late")) ∧
      s.milestones = [.registering "note", .frozen 2, .compiled 1 false, .compiled 0 true] := by
  obtain ⟨hfrozen, hfinal, -, -, hlog, -⟩ := freezes_once lateHelper
  have hused := hfrozen.2 ⟨lateHelper.take 3, .render "small", lateHelper.drop 4, rfl, rfl⟩
  refine ⟨hused, (hfinal hused).2 "late" .content _ rfl, hlog.trans ?_⟩
  rw [if_pos hused]
  rfl

end Runs

end Session

end BemMarkup

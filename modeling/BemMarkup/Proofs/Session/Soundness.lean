import BemMarkup.Proofs.Compilation.Derivation
import BemMarkup.Proofs.Session.Ancestry
import BemMarkup.Session.Action

/-!
# What a session keeps is right

A session compiles a template when it is first asked for and keeps the compiled form.  The
names of a template may change afterwards, other templates may be added, and as long as
nothing is compiled helpers may be registered.  None of this makes a kept form wrong.  A
compiled form depends on the documents of a chain and on the helpers, but not on names, so
renaming leaves it alone.  A template gets its parent when it is made, so its chain never
gets other documents.  And where something has been compiled the helpers are final.

`Session.Sound` says that everything a session keeps is what would be computed afresh: the
compiled forms from the documents of the chain, and the stems from its names.  This module
goes through the ways in which a session changes.

## Main definitions

* `Session.chain`: the documents and the names of a template and its ancestors.
* `compileAfresh`: compiling a chain without a session.
* `Session.Sound`: nothing that is kept is out of date.

## Main results

* `Session.Sound.add_classStems`, `Session.Sound.rename`: new templates and new names keep a
  session sound.
* `Session.Sound.obtainFrom`: a template is compiled rightly, whatever is known already.
-/

namespace BemMarkup

open Document Template

/-! ## Chains without a session -/

/-- What a template adds to the chain that it ends. -/
structure Generation where
  /-- The nodes of its document. -/
  nodes : List Node
  /-- Its block names. -/
  blockNames : List String

/-- What a template adds to its chain. -/
def Template.generation (template : Template) : Generation :=
  ⟨template.nodes, template.blockNames⟩

/-- The chain of a template, as it is at the moment: the template first. -/
def Session.chain (s : Session) (id : String) : List Generation :=
  (lineage s.templates id).map fun entry => entry.2.generation

/-- The stems of a chain: those of all its names, and an empty one at the end. -/
def chainStems (chain : List Generation) : List String :=
  chain.flatMap (fun generation => generation.blockNames.map classStem) ++ [""]

/-- The compiled form of a chain, from the topmost document down. -/
def compileAfresh (helpers : Table Helper) (id : String) (chain : List Generation) :
    Except Refusal Compiled :=
  match compileChain helpers (chain.map (·.nodes)).reverse with
  | .error stop => .error (.ofStop stop)
  | .ok none => .error (.noTemplate id)
  | .ok (some compiled) => .ok compiled

section Afresh

variable {helpers : Table Helper} {id : String} {chain older : List Generation}
  {generation : Generation}

theorem chainStems_cons (generation : Generation) (older : List Generation) :
    chainStems (generation :: older) =
      generation.blockNames.map classStem ++ chainStems older := by
  rw [chainStems, List.flatMap_cons, List.append_assoc, ← chainStems]

theorem compileAfresh_nil : compileAfresh helpers id [] = .error (.noTemplate id) := rfl

theorem compileAfresh_eq_ok_iff {compiled : Compiled} :
    compileAfresh helpers id chain = .ok compiled ↔
      compileChain helpers (chain.map (·.nodes)).reverse = .ok (some compiled) := by
  unfold compileAfresh
  split <;> simp_all

/-- Only the documents of a chain are compiled. -/
theorem compileAfresh_congr (h : chain.map (·.nodes) = older.map (·.nodes)) :
    compileAfresh helpers id chain = compileAfresh helpers id older := by
  rw [compileAfresh, h, ← compileAfresh]

/-- A chain is compiled by compiling its last document over the chain of the others. -/
theorem compileAfresh_cons {parent : Option Compiled}
    (hparent : compileChain helpers (older.map (·.nodes)).reverse = .ok parent) :
    compileAfresh helpers id (generation :: older) =
      (compile helpers parent generation.nodes).mapError .ofStop := by
  rw [compileAfresh, List.map_cons, List.reverse_cons, compileChain_append_singleton, hparent]
  change (match (compile helpers parent generation.nodes).map some with
    | .error stop => _ | .ok none => _ | .ok (some compiled) => _) = _
  cases compile helpers parent generation.nodes <;> rfl

/-- A chain is refused for the same reason as the chain of its ancestors. -/
theorem compileAfresh_cons_of_error {parentId : String} {refusal : Refusal} (hne : older ≠ [])
    (h : compileAfresh helpers parentId older = .error refusal) :
    compileAfresh helpers id (generation :: older) = .error refusal := by
  rw [compileAfresh, List.map_cons, List.reverse_cons, compileChain_append_singleton]
  unfold compileAfresh at h
  cases hparent : compileChain helpers (older.map (·.nodes)).reverse with
  | error stop =>
      rw [hparent] at h
      cases h
      rfl
  | ok parent =>
      cases parent with
      | none => exact absurd rfl (compileChain_ne_none hparent (by simpa using hne))
      | some compiled =>
          rw [hparent] at h
          cases h

end Afresh

namespace Session

/-! ## Sound sessions -/

/-- Everything that a session keeps is what would be computed afresh. -/
structure Sound (s : Session) : Prop where
  /-- Parents are older than their children. -/
  ordered : Ordered s.templates
  /-- Stems are those of the names of the chain. -/
  stems : ∀ {id : String} {template : Template}, s.template? id = some template →
    template.stems = chainStems (s.chain id)
  /-- Where something is compiled, the helpers are final. -/
  frozen : ∀ {id : String} {compiled : Compiled}, s.compiled.get? id = some compiled →
    s.registry.isFrozen = true
  /-- Compiled forms are those of the documents of the chain. -/
  compiled : ∀ {id : String} {compiled : Compiled}, s.compiled.get? id = some compiled →
    compileAfresh s.registry.helpers id (s.chain id) = .ok compiled

theorem Sound.initial : Sound .initial where
  ordered := .nil
  stems := by
    intro id template h
    cases h
  frozen := by
    intro id compiled h
    cases h
  compiled := by
    intro id compiled h
    cases h

section Chains

variable {s : Session} {id other : String} {template : Template}

theorem chain_of_template?_eq_none (h : s.template? id = none) : s.chain id = [] := by
  rw [chain, lineage_of_lookup_none h, List.map_nil]

/-- A chain is what a template adds to the chain of its parent. -/
theorem Sound.chain_eq (hs : s.Sound) (h : s.template? id = some template) :
    s.chain id = template.generation :: template.parent.elim [] s.chain := by
  rw [chain, hs.ordered.lineage_eq h, List.map_cons]
  cases template.parent <;> rfl

theorem chain_add_self :
    (s.add id template).chain id = template.generation :: template.parent.elim [] s.chain := by
  rw [chain, add, lineage_cons_self, List.map_cons]
  cases template.parent <;> rfl

theorem chain_add_of_ne (h : other ≠ id) : (s.add id template).chain other = s.chain other := by
  rw [chain, add, lineage_cons_of_ne h, ← chain]

theorem template?_add_self : (s.add id template).template? id = some template :=
  lookup_cons_self

theorem template?_add_of_ne (h : other ≠ id) :
    (s.add id template).template? other = s.template? other :=
  lookup_cons_of_ne h

/-- What a session has compiled belongs to one of its templates. -/
theorem Sound.exists_template (hs : s.Sound) {compiled : Compiled}
    (h : s.compiled.get? id = some compiled) : ∃ template, s.template? id = some template := by
  cases htemplate : s.template? id with
  | some template => exact ⟨template, rfl⟩
  | none =>
      have hcompiled := hs.compiled h
      rw [chain_of_template?_eq_none htemplate, compileAfresh_nil] at hcompiled
      cases hcompiled

end Chains

/-- The log has no part in it. -/
theorem Sound.withLog {s : Session} (hs : s.Sound) (log : List Event) :
    Sound { s with log := log } :=
  ⟨hs.ordered, hs.stems, hs.frozen, hs.compiled⟩

theorem Sound.record {s : Session} (hs : s.Sound) (event : Event) : (s.record event).Sound :=
  hs.withLog _

/-! ## Adding templates -/

section Adding

variable {s : Session} {id : String} {template : Template}

/-- A new template with the stems of its chain keeps a session sound. -/
theorem Sound.add (hs : s.Sound) (hnew : s.template? id = none)
    (hparent : ∀ parent, template.parent = some parent → ∃ t, s.template? parent = some t)
    (hstems : template.stems =
      chainStems (template.generation :: template.parent.elim [] s.chain)) :
    (s.add id template).Sound where
  ordered := hs.ordered.cons hnew hparent
  stems := by
    intro other t h
    by_cases hother : other = id
    · subst hother
      rw [template?_add_self] at h
      cases h
      rw [chain_add_self, hstems]
    · rw [template?_add_of_ne hother] at h
      rw [chain_add_of_ne hother, hs.stems h]
  frozen := hs.frozen
  compiled := by
    intro other compiled h
    -- the new template is not among the compiled ones
    obtain ⟨t, ht⟩ := hs.exists_template h
    have hother : other ≠ id := ne_of_lookup hnew ht
    rw [chain_add_of_ne hother]
    exact hs.compiled h

/-- Where the parent of a new template exists, the stems are taken from its chain. -/
theorem Sound.parentStems_eq_ok (hs : s.Sound) {parent : Option String}
    {inherited : Option (List String)} (h : s.parentStems parent = .ok inherited) :
    (∀ p, parent = some p → ∃ t, s.template? p = some t) ∧
      inherited.getD [""] = chainStems (parent.elim [] s.chain) := by
  unfold parentStems at h
  split at h
  · cases h
    exact ⟨by simp, rfl⟩
  · rename_i p
    split at h
    · cases h
    · rename_i t ht
      cases h
      refine ⟨?_, hs.stems ht⟩
      rintro _ ⟨⟩
      exact ⟨t, ht⟩

/-- A template with a new identifier and with the stems of its parent in its own can be
added. -/
theorem Sound.add_classStems (hs : s.Sound) (hnew : s.template? id = none)
    {parent : Option String} {inherited : Option (List String)}
    (hinherited : s.parentStems parent = .ok inherited) (block : Option Block)
    (names : List String) :
    (s.add id ⟨block, parent, names, classStems names inherited⟩).Sound := by
  obtain ⟨hparent, hstems⟩ := hs.parentStems_eq_ok hinherited
  refine hs.add hnew hparent ?_
  rw [chainStems_cons, ← hstems]
  rfl

end Adding

/-! ## Renaming -/

/-- An entry with other names for the template of an identifier. -/
def retitle (id : String) (names stems : List String) (entry : String × Template) :
    String × Template :=
  if entry.1 = id then (id, { entry.2 with blockNames := names, stems := stems }) else entry

section Renaming

variable {s : Session} {id other : String} {template : Template} {names stems : List String}

theorem retitle_id (entry : String × Template) : (retitle id names stems entry).1 = entry.1 := by
  rw [retitle]
  split
  · exact Eq.symm ‹_›
  · rfl

theorem retitle_parent (entry : String × Template) :
    (retitle id names stems entry).2.parent = entry.2.parent := by
  rw [retitle]
  split <;> rfl

theorem retitle_nodes (entry : String × Template) :
    (retitle id names stems entry).2.nodes = entry.2.nodes := by
  rw [retitle]
  split <;> rfl

theorem retitle_of_ne {entry : String × Template} (h : entry.1 ≠ id) :
    retitle id names stems entry = entry := by
  rw [retitle, if_neg h]

theorem retitle_self :
    retitle id names stems (id, template) =
      (id, { template with blockNames := names, stems := stems }) := by
  rw [retitle, if_pos rfl]

theorem lineage_rename :
    lineage (s.rename id names stems).templates other =
      (lineage s.templates other).map (retitle id names stems) :=
  lineage_map retitle_id retitle_parent s.templates other

theorem template?_rename :
    (s.rename id names stems).template? other =
      (s.template? other).map fun t => (retitle id names stems (other, t)).2 :=
  lookup_map retitle_id s.templates other

/-- Whoever is renamed, the documents of a chain stay. -/
theorem nodes_chain_rename :
    ((s.rename id names stems).chain other).map (·.nodes) = (s.chain other).map (·.nodes) := by
  simp only [chain, lineage_rename, List.map_map]
  exact List.map_congr_left fun entry _ => retitle_nodes entry

/-- A template without children is nowhere among the ancestors. -/
theorem ne_of_mem_tail (hshared : s.isShared id = false) {ancestor : String × Template}
    (h : ancestor ∈ (lineage s.templates other).tail) : ancestor.1 ≠ id := by
  rintro rfl
  obtain ⟨child, hchild, hparent⟩ := exists_child_of_mem_tail h
  have := List.any_eq_false.1 hshared child hchild
  simp [hparent] at this

theorem chain_rename_of_ne (hshared : s.isShared id = false) (hother : other ≠ id) :
    (s.rename id names stems).chain other = s.chain other := by
  rw [chain, lineage_rename, chain]
  cases hlineage : lineage s.templates other with
  | nil => rfl
  | cons first ancestors =>
      have hkeep : ∀ entry ∈ first :: ancestors, retitle id names stems entry = entry := by
        intro entry hentry
        refine retitle_of_ne ?_
        rcases List.mem_cons.1 hentry with rfl | hentry
        · rw [(lookup_of_lineage hlineage).1]
          exact hother
        · have htail : entry ∈ (lineage s.templates other).tail := by
            rw [hlineage]
            exact hentry
          exact ne_of_mem_tail hshared htail
      rw [List.map_congr_left hkeep, List.map_id']

theorem Sound.chain_rename_self (hs : s.Sound) (h : s.template? id = some template)
    (hshared : s.isShared id = false) :
    (s.rename id names stems).chain id =
      ⟨template.nodes, names⟩ :: template.parent.elim [] s.chain := by
  have hlineage := hs.ordered.lineage_eq h
  have hkeep : ∀ entry ∈ template.parent.elim [] (lineage s.templates),
      retitle id names stems entry = entry := by
    intro entry hentry
    have htail : entry ∈ (lineage s.templates id).tail := by
      rw [hlineage]
      exact hentry
    exact retitle_of_ne (ne_of_mem_tail hshared htail)
  rw [chain, lineage_rename, hlineage, List.map_cons, List.map_congr_left hkeep, List.map_id',
    retitle_self, List.map_cons]
  cases template.parent <;> rfl

/-- New names with their stems keep a session sound if the template has no children. -/
theorem Sound.rename (hs : s.Sound) (h : s.template? id = some template)
    (hshared : s.isShared id = false) {inherited : Option (List String)}
    (hinherited : s.parentStems template.parent = .ok inherited) (names : List String) :
    (s.rename id names (classStems names inherited)).Sound where
  ordered := hs.ordered.map retitle_id retitle_parent
  stems := by
    intro other t ht
    rw [template?_rename] at ht
    by_cases hother : other = id
    · subst hother
      rw [h, Option.map_some, retitle_self] at ht
      cases ht
      rw [hs.chain_rename_self h hshared, chainStems_cons,
        ← (hs.parentStems_eq_ok hinherited).2]
      rfl
    · rw [chain_rename_of_ne hshared hother]
      cases hold : s.template? other with
      | none =>
          rw [hold] at ht
          cases ht
      | some old =>
          rw [hold, Option.map_some, retitle_of_ne hother] at ht
          cases ht
          exact hs.stems hold
  frozen := hs.frozen
  compiled := by
    intro other compiled hget
    rw [show (s.rename id names (classStems names inherited)).registry = s.registry from rfl,
      compileAfresh_congr nodes_chain_rename]
    exact hs.compiled hget

end Renaming

/-! ## Compiling -/

section Compiling

variable {s : Session} {id : String} {template : Template}

theorem freeze_templates (s : Session) : s.freeze.templates = s.templates := by
  rw [freeze]
  split <;> rfl

theorem freeze_registry (s : Session) : s.freeze.registry = s.registry.freeze := by
  rw [freeze]
  split
  · exact (Registry.freeze_of_frozen ‹_›).symm
  · rfl

/-- A later session in which nothing has been edited: at most more is compiled, and the
helpers may have become final. -/
structure Unedited (s later : Session) : Prop where
  /-- The later session is sound. -/
  sound : later.Sound
  /-- Its templates are the same. -/
  templates : later.templates = s.templates
  /-- So are its helpers. -/
  helpers : later.registry.helpers = s.registry.helpers
  /-- Final helpers stay final. -/
  frozen : s.registry.isFrozen = true → later.registry = s.registry

theorem Sound.unedited (hs : s.Sound) : Unedited s s :=
  ⟨hs, rfl, rfl, fun _ => rfl⟩

theorem Unedited.trans {middle last : Session} (h : Unedited s middle)
    (h' : Unedited middle last) : Unedited s last where
  sound := h'.sound
  templates := h'.templates.trans h.templates
  helpers := h'.helpers.trans h.helpers
  frozen := by
    intro hfrozen
    have hmiddle := h.frozen hfrozen
    rw [h'.frozen (by rw [hmiddle]; exact hfrozen), hmiddle]

theorem Unedited.record {later : Session} (h : Unedited s later) (event : Event) :
    Unedited s (later.record event) :=
  ⟨h.sound.record event, h.templates, h.helpers, h.frozen⟩

theorem Unedited.chain {later : Session} (h : Unedited s later) : later.chain = s.chain := by
  funext other
  rw [Session.chain, h.templates, ← Session.chain]

/-- An outcome of compiling a template, with the session after it: what compiling the chain
afresh gives, and nothing is edited. -/
structure Obtained (s : Session) (id : String) (result : Except Refusal Compiled × Session) :
    Prop where
  /-- Nothing is edited. -/
  unedited : Unedited s result.2
  /-- The outcome does not depend on what was known before. -/
  outcome : result.1 = compileAfresh s.registry.helpers id (s.chain id)

/-- Giving a compiled form that is known has no effect. -/
theorem Sound.obtained_known (hs : s.Sound) {compiled : Compiled}
    (h : s.compiled.get? id = some compiled) : Obtained s id (.ok compiled, s) :=
  ⟨hs.unedited, (hs.compiled h).symm⟩

/-- The compiled form of its chain can be kept for a template once helpers are final. -/
theorem Sound.unedited_remember (hs : s.Sound) (hfrozen : s.registry.isFrozen = true)
    {compiled : Compiled}
    (hcompiled : compileAfresh s.registry.helpers id (s.chain id) = .ok compiled) :
    Unedited s (s.remember id compiled) := by
  refine ⟨⟨hs.ordered, hs.stems, fun _ => hfrozen, ?_⟩, rfl, rfl, fun _ => rfl⟩
  intro other form h
  rw [remember, Table.get?_insert] at h
  split at h
  · rename_i hother
    cases h
    cases hother
    exact hcompiled
  · exact hs.compiled h

theorem Sound.unedited_freeze (hs : s.Sound) : Unedited s s.freeze := by
  refine ⟨?_, freeze_templates s, by rw [freeze_registry]; rfl, fun hfrozen => ?_⟩
  · rw [freeze]
    split
    · exact hs
    · exact ⟨hs.ordered, hs.stems, fun _ => rfl, hs.compiled⟩
  · rw [freeze_registry, Registry.freeze_of_frozen hfrozen]

/-- A template is compiled rightly over its parent, which is what its chain without it
compiles to. -/
theorem Sound.compileNow (hs : s.Sound) (h : s.template? id = some template)
    {parent : Option Compiled}
    (hparent : compileChain s.registry.helpers
      ((template.parent.elim [] s.chain).map (·.nodes)).reverse = .ok parent) :
    Obtained s id (s.compileNow id template parent) := by
  have hafresh : compileAfresh s.registry.helpers id (s.chain id) =
      (compile s.registry.helpers parent template.nodes).mapError .ofStop := by
    rw [hs.chain_eq h, compileAfresh_cons hparent]
    rfl
  have hunedited : Unedited s (s.record (.compiling template.blockNames)).freeze :=
    (hs.unedited.record _).trans (hs.record _).unedited_freeze
  have hfrozen : (s.record (.compiling template.blockNames)).freeze.registry.isFrozen = true := by
    rw [freeze_registry]
    rfl
  rw [Session.compileNow]
  generalize (s.record (.compiling template.blockNames)).freeze = next at *
  rw [← hunedited.helpers] at hafresh
  split
  · rename_i stop hstop
    rw [hstop] at hafresh
    exact ⟨hunedited, by rw [← hunedited.helpers, hafresh]; rfl⟩
  · rename_i compiled hcompiled
    rw [hcompiled] at hafresh
    refine ⟨?_, by rw [← hunedited.helpers, hafresh]; rfl⟩
    refine (hunedited.record _).trans ((hunedited.sound.record _).unedited_remember hfrozen ?_)
    rw [← hunedited.chain] at hafresh
    exact hafresh

/-- A template is compiled rightly over its parent in a session that has compiled the parent
since. -/
theorem Unedited.compileNow_over {next : Session} (h : Unedited s next)
    (htemplate : s.template? id = some template) {parentId : String}
    (hparent : template.parent = some parentId) {compiled : Compiled}
    (hcompiled : compileAfresh s.registry.helpers parentId (s.chain parentId) = .ok compiled) :
    Obtained s id (next.compileNow id template (some compiled)) := by
  have hnow : Obtained next id (next.compileNow id template (some compiled)) := by
    refine h.sound.compileNow ?_ ?_
    · rw [template?, h.templates]
      exact htemplate
    · rw [hparent, Option.elim_some, h.chain, h.helpers]
      exact compileAfresh_eq_ok_iff.1 hcompiled
  refine ⟨h.trans hnow.unedited, ?_⟩
  rw [hnow.outcome, h.helpers, h.chain]

/-- A template is compiled rightly after its ancestors, whatever is known of them. -/
theorem Sound.obtainFrom (hs : s.Sound) {ancestors : List (String × Template)}
    (h : lineage s.templates id = (id, template) :: ancestors) :
    Obtained s id (s.obtainFrom id template ancestors) := by
  induction ancestors generalizing id template with
  | nil =>
      rw [Session.obtainFrom]
      split
      · exact hs.obtained_known ‹_›
      · have htemplate : s.template? id = some template := (lookup_of_lineage h).2
        refine hs.compileNow htemplate ?_
        -- the lineage ends here, so there is no parent
        have hchain := hs.chain_eq htemplate
        rw [chain, h] at hchain
        rw [← (List.cons.inj hchain).2]
        rfl
  | cons ancestor ancestors ih =>
      obtain ⟨parentId, parent⟩ := ancestor
      obtain ⟨hparent, hlineage⟩ := hs.ordered.lineage_tail h
      have hobtained := ih hlineage
      have htemplate : s.template? id = some template := (lookup_of_lineage h).2
      have hchain := hs.chain_eq htemplate
      rw [show template.parent = some parentId from hparent, Option.elim_some] at hchain
      rw [Session.obtainFrom]
      split
      · exact hs.obtained_known ‹_›
      · split
        · rename_i refusal next hnext
          rw [hnext] at hobtained
          refine ⟨hobtained.unedited, ?_⟩
          rw [hchain, compileAfresh_cons_of_error ?_ hobtained.outcome.symm]
          rw [chain, hlineage]
          exact List.cons_ne_nil _ _
        · rename_i compiled next hnext
          rw [hnext] at hobtained
          exact hobtained.unedited.compileNow_over htemplate hparent hobtained.outcome.symm

/-- Either there is no such template, or it is found and compiled rightly. -/
theorem Sound.obtain_cases (hs : s.Sound) (id : String) :
    (s.template? id = none ∧ s.obtain id = (.error (.noTemplate id), s)) ∨
      ∃ template result, s.template? id = some template ∧ Obtained s id result ∧
        s.obtain id = (result.1.map fun compiled => (template, compiled), result.2) := by
  rw [obtain]
  cases htemplate : s.template? id with
  | none =>
      rw [lineage_of_lookup_none htemplate]
      exact .inl ⟨rfl, rfl⟩
  | some template =>
      obtain ⟨ancestors, hlineage⟩ := exists_lineage_of_lookup htemplate
      refine .inr ⟨template, _, rfl, hs.obtainFrom hlineage, ?_⟩
      rw [hlineage]
      dsimp only
      split
      · rename_i refusal next h
        rw [h]
        rfl
      · rename_i compiled next h
        rw [h]
        rfl

/-- The form that is given for a template is what its chain compiles to. -/
theorem Sound.obtain_fst (hs : s.Sound) (id : String) :
    (s.obtain id).1.map (·.2) = compileAfresh s.registry.helpers id (s.chain id) := by
  obtain ⟨htemplate, h⟩ | ⟨template, ⟨outcome, next⟩, -, hobtained, h⟩ := hs.obtain_cases id
  · rw [h, chain_of_template?_eq_none htemplate]
    rfl
  · have houtcome : outcome = compileAfresh s.registry.helpers id (s.chain id) :=
      hobtained.outcome
    rw [h, ← houtcome]
    cases outcome <;> rfl

end Compiling

end Session

end BemMarkup

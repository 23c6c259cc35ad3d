import BemMarkup.Proofs.Session.Extension
import BemMarkup.Session.Chain

/-!
# The stages of a chain

The stages of a chain come from one session.  It has a template for each source, it keeps what it
has compiled, and each stage is rendered before the next source is read.

None of this can be seen in the stages.  A stage is what the chain of its source and those before it
is rendered to by itself, with the helpers that every session has.  So later sources do not change
the stages before them.

The identifiers are numbers that count up, so the next one is always new.

## Main definitions

* `generationOf`: what a source adds to a chain.
* `stagesAfresh`: the stages of a chain without a session.

## Main results

* `Session.Sound.renderStage`: a stage answers as the chain of its template does.
* `renderChain_eq`: so do all stages of a chain.
* `renderChain_prefix`: more sources only add stages.
-/

namespace BemMarkup

open Document Template

/-! ## Stages without a session -/

/-- What a source adds to a chain, or why no template is made from it. -/
def generationOf (source : String) : Except Refusal Generation :=
  match parse source with
  | .error error => .error (.failed (.parse error))
  | .ok block =>
    match block.name with
    | none => .error (.failed .missingBlockName)
    | some name => .ok ⟨block.content, [name]⟩

/-- What a chain and some of its elements are rendered to. -/
def stageAfresh (helpers : Table Helper) (id : String) (elements : List String)
    (chain : List Generation) : Stage :=
  ⟨renderAfresh helpers id chain,
    elements.map fun name => (name, renderElementAfresh helpers id chain name)⟩

/-- The stages of sources that are put in front of a chain, up to one that makes no template. -/
def stagesAfresh (helpers : Table Helper) (elements : List String) :
    List Generation → List String → List (Except Refusal Stage)
  | _, [] => []
  | chain, source :: sources =>
    match generationOf source with
    | .error refusal => [.error refusal]
    | .ok generation =>
      .ok (stageAfresh helpers "" elements (generation :: chain)) ::
        stagesAfresh helpers elements (generation :: chain) sources

/-- A source is not parsed, or it has no name, or it adds its content and its name. -/
theorem generationOf_cases (source : String) :
    (∃ error, parse source = .error error ∧
        generationOf source = .error (.failed (.parse error))) ∨
      (∃ block, parse source = .ok block ∧ block.name = none ∧
        generationOf source = .error (.failed .missingBlockName)) ∨
      ∃ block name, parse source = .ok block ∧ block.name = some name ∧
        generationOf source = .ok ⟨block.content, [name]⟩ := by
  unfold generationOf
  cases parse source with
  | error error => exact .inl ⟨error, rfl, rfl⟩
  | ok block =>
      cases hname : block.name with
      | none => exact .inr (.inl ⟨block, rfl, hname, by simp only [hname]⟩)
      | some name => exact .inr (.inr ⟨block, name, rfl, hname, by simp only [hname]⟩)

/-- The identifier of a template has no part in its stage. -/
theorem stageAfresh_id {helpers : Table Helper} {id id' : String} {elements : List String}
    {chain : List Generation} (h : chain ≠ []) :
    stageAfresh helpers id elements chain = stageAfresh helpers id' elements chain := by
  have hcompile : compileAfresh helpers id chain = compileAfresh helpers id' chain :=
    Session.compileAfresh_id h
  simp only [stageAfresh, renderAfresh, renderElementAfresh, hcompile]

namespace Session

/-! ## One stage -/

section Rendering

variable {s : Session}

/-- Elements that are rendered one after the other answer as they would afresh. -/
theorem Sound.renderElements (hs : s.Sound) (id : String) (names : List String) :
    (s.renderElements id names).1 =
        names.map (fun name => (name, renderElementAfresh s.registry.helpers id (s.chain id) name)) ∧
      Unedited s (s.renderElements id names).2 := by
  induction names generalizing s with
  | nil => exact ⟨rfl, hs.unedited⟩
  | cons name names ih =>
      obtain ⟨hanswer, hunedited⟩ := hs.renderElementOf id name
      obtain ⟨hanswers, hlast⟩ := ih hunedited.sound
      rw [hunedited.helpers, hunedited.chain] at hanswers
      refine ⟨?_, hunedited.trans hlast⟩
      rw [List.map_cons, ← hanswer, ← hanswers]
      rfl

/-- A stage answers as the chain of its template does, and nothing is edited. -/
theorem Sound.renderStage (hs : s.Sound) (id : String) (elements : List String) :
    (s.renderStage id elements).1 = stageAfresh s.registry.helpers id elements (s.chain id) ∧
      Unedited s (s.renderStage id elements).2 := by
  obtain ⟨hpage, hunedited⟩ := hs.renderTemplate id
  obtain ⟨helements, hlast⟩ := hunedited.sound.renderElements id elements
  rw [hunedited.helpers, hunedited.chain] at helements
  refine ⟨?_, hunedited.trans hlast⟩
  rw [stageAfresh, ← hpage, ← helements]
  rfl

end Rendering

/-! ## One source -/

section Making

variable {s : Session} {id source : String} {parent : Option String}
  {inherited : Option (List String)}

/-- A source that adds nothing to a chain makes no template. -/
theorem create_of_generationOf_error (hnew : s.template? id = none)
    (hinherited : s.parentStems parent = .ok inherited) {refusal : Refusal}
    (h : generationOf source = .error refusal) :
    ∃ later, s.perform (.create id (.source source) ⟨parent, none, none⟩) =
      (.error refusal, later) := by
  show ∃ later, s.create id (.source source) ⟨parent, none, none⟩ = _
  rw [Session.create, if_neg (by rw [hnew]; simp), hinherited, blockOf, parseSource]
  rcases generationOf_cases source with
    ⟨error, hparse, hgeneration⟩ | ⟨block, hparse, hname, hgeneration⟩ | ⟨_, _, _, _, hgeneration⟩
  · cases hgeneration.symm.trans h
    rw [hparse]
    exact ⟨_, rfl⟩
  · cases hgeneration.symm.trans h
    have hnames : namesOf block [] = .error (.failed .missingBlockName) := by
      unfold namesOf
      rw [hname]
    refine ⟨s.record (.parsing source.utf8ByteSize), ?_⟩
    rw [hparse]
    dsimp only [Except.mapError]
    rw [show Options.names ⟨parent, none, none⟩ = [] from rfl, hnames]
  · cases hgeneration.symm.trans h

/-- What makes a template adds it to the others. -/
theorem template?_of_create {origin : Origin} {options : Options} {later : Session}
    (h : s.perform (.create id origin options) = (.ok .done, later)) :
    (∃ template, later.template? id = some template) ∧
      ∀ other, other ≠ id → later.template? other = s.template? other := by
  obtain ⟨log, ⟨refusal, hcreate⟩ | ⟨block, names, inherited, -, -, hcreate⟩⟩ :=
    create_cases s id origin options
  · cases hcreate.symm.trans h
  · cases hcreate.symm.trans h
    exact ⟨⟨_, template?_add_self⟩, fun other hother => template?_add_of_ne hother⟩

/-- A result in which a new template ends a chain and its stage has been rendered. -/
structure Staged (s : Session) (id : String) (elements : List String) (chain : List Generation)
    (result : Stage × Session) : Prop where
  /-- The stage is that of the chain. -/
  stage : result.1 = stageAfresh s.registry.helpers "" elements chain
  /-- The session is sound. -/
  sound : result.2.Sound
  /-- Its helpers are those from before. -/
  helpers : result.2.registry.helpers = s.registry.helpers
  /-- The template is there. -/
  template : ∃ template, result.2.template? id = some template
  /-- It ends the chain. -/
  chain : result.2.chain id = chain
  /-- The other templates are those from before. -/
  others : ∀ other, other ≠ id → result.2.template? other = s.template? other

/-- A source that adds to a chain makes a template, and its stage is that of the longer chain. -/
theorem Sound.exists_staged (hs : s.Sound) (hnew : s.template? id = none)
    (hinherited : s.parentStems parent = .ok inherited) {generation : Generation}
    (h : generationOf source = .ok generation) (elements : List String) :
    ∃ later, s.perform (.create id (.source source) ⟨parent, none, none⟩) = (.ok .done, later) ∧
      Staged s id elements (generation :: parent.elim [] s.chain)
        (later.renderStage id elements) := by
  obtain ⟨_, _, hgeneration⟩ | ⟨_, _, _, hgeneration⟩ | ⟨block, name, hparse, hname, hgeneration⟩ :=
    generationOf_cases source
  · cases hgeneration.symm.trans h
  · cases hgeneration.symm.trans h
  cases hgeneration.symm.trans h
  obtain ⟨later, hcreate, hsound, hhelpers, hchain⟩ :=
    hs.exists_made hnew hinherited hparse hname
  obtain ⟨⟨template, htemplate⟩, hothers⟩ := template?_of_create hcreate
  obtain ⟨hstage, hunedited⟩ := hsound.renderStage id elements
  rw [hhelpers, hchain] at hstage
  refine ⟨later, hcreate, ?_, hunedited.sound, hunedited.helpers.trans hhelpers, ⟨template, ?_⟩, ?_,
    fun other hother => ?_⟩
  · exact hstage.trans (stageAfresh_id (List.cons_ne_nil _ _))
  · exact (template?_congr hunedited.templates id).trans htemplate
  · rw [hunedited.chain, hchain]
  · exact (template?_congr hunedited.templates other).trans (hothers other hother)

end Making

/-! ## All stages -/

section Stages

variable {s : Session} {parent : Option String} {inherited : Option (List String)}
  {position : Nat}

/-- Numbers are told apart by the digits that write them. -/
theorem eq_of_toString_eq {m n : Nat} (h : toString m = toString n) : m = n := by
  have hdigits : Nat.toDigits 10 m = Nat.toDigits 10 n := by
    rw [Nat.toString_eq_ofList_toDigits, Nat.toString_eq_ofList_toDigits] at h
    exact String.ofList_injective h
  calc m
    _ = Nat.ofDigitChars 10 (Nat.toDigits 10 m) 0 := Nat.ofDigitChars_ten_toDigits.symm
    _ = Nat.ofDigitChars 10 (Nat.toDigits 10 n) 0 := by rw [hdigits]
    _ = n := Nat.ofDigitChars_ten_toDigits

/-- The stages of sources are those of the chain in front of which they are put. -/
theorem Sound.stages_eq (hs : s.Sound) (hinherited : s.parentStems parent = .ok inherited)
    (hnew : ∀ n, position ≤ n → s.template? (toString n) = none) (elements sources : List String) :
    s.stages elements position parent sources =
      stagesAfresh s.registry.helpers elements (parent.elim [] s.chain) sources := by
  induction sources generalizing s parent inherited position with
  | nil => rfl
  | cons source sources ih =>
      have hid := hnew position (Nat.le_refl position)
      rw [stages, stagesAfresh]
      cases hgeneration : generationOf source with
      | error refusal =>
          obtain ⟨later, hcreate⟩ := create_of_generationOf_error hid hinherited hgeneration
          rw [hcreate]
      | ok generation =>
          obtain ⟨later, hcreate, hstaged⟩ :=
            hs.exists_staged hid hinherited hgeneration elements
          rw [hcreate]
          dsimp only
          generalize later.renderStage (toString position) elements = result at hstaged
          obtain ⟨template, htemplate⟩ := hstaged.template
          -- the numbers behind this one are still new
          have hfree : ∀ n, position + 1 ≤ n → result.2.template? (toString n) = none := by
            intro n hn
            have hne : toString n ≠ toString position := by
              intro heq
              have hsame := eq_of_toString_eq heq
              omega
            rw [hstaged.others _ hne]
            exact hnew n (by omega)
          have hlater := ih hstaged.sound (parentStems_some htemplate) hfree
          rw [Option.elim_some, hstaged.helpers, hstaged.chain] at hlater
          rw [hlater, hstaged.stage]

end Stages

end Session

/-- **Stages.**  Every stage of a chain is what its source and those before it are rendered to by
themselves, up to the first source from which no template is made. -/
theorem renderChain_eq (sources elements : List String) :
    renderChain sources elements =
      stagesAfresh Session.initial.registry.helpers elements [] sources :=
  Session.Sound.initial.stages_eq rfl (fun _ _ => rfl) elements sources

/-- Sources that are added to a chain leave its stages as they are. -/
theorem renderChain_prefix (sources more elements : List String) :
    renderChain sources elements <+: renderChain (sources ++ more) elements := by
  rw [renderChain_eq, renderChain_eq]
  generalize ([] : List Generation) = chain
  induction sources generalizing chain with
  | nil => exact List.nil_prefix
  | cons source sources ih =>
      rw [List.cons_append, stagesAfresh, stagesAfresh]
      cases generationOf source with
      | error refusal => exact List.prefix_rfl
      | ok generation => exact List.cons_prefix_cons.2 ⟨rfl, ih _⟩

end BemMarkup

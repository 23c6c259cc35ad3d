import BemMarkup.Proofs.Session.Transparency

/-!
# Templates that extend another one

A template that is made with a parent, from a source or by deriving, puts one generation in front
of the chain of its parent.  Nothing else of it matters to its answers: they are those of its
nodes, compiled over the compiled form of the parent, with the stems of its names in front.

So two templates over one parent can be compared by the pieces of their compiled forms.

## Main definitions

* `Session.Extends`: a session in which a template extends a template of another session.

## Main results

* `Session.Extends.render_fst`, `Session.Extends.renderElement_fst`: the answers of a template
  that extends another one.
-/

namespace BemMarkup

open Document Template

namespace Session

/-- In the later session, the template `id` puts a generation in front of the chain that `parent`
has in the session.  The helpers are the same. -/
structure Extends (s : Session) (id parent : String) (generation : Generation) (later : Session) :
    Prop where
  /-- The later session is sound. -/
  sound : later.Sound
  /-- Its helpers are those of the session. -/
  helpers : later.registry.helpers = s.registry.helpers
  /-- The chain of the template. -/
  chain : later.chain id = generation :: s.chain parent

section Making

variable {s : Session} {id parent : String} {template : Template}

theorem parentStems_some (hparent : s.template? parent = some template) :
    s.parentStems (some parent) = .ok (some template.stems) := by
  rw [parentStems, hparent]

/-- A derived template extends its parent by a name alone. -/
theorem Sound.exists_derived (hs : s.Sound) (hnew : s.template? id = none)
    (hparent : s.template? parent = some template) (name : String) :
    ∃ later, s.perform (.derive id parent name) = (.ok .done, later) ∧
      Extends s id parent (.derived name) later := by
  have hinherited := parentStems_some hparent
  refine ⟨_, derive_eq hnew hinherited name, ?_⟩
  exact ⟨hs.add_classStems hnew hinherited none [name], rfl, chain_add_self⟩

/-- A template that is made from a source with a name puts what the source is parsed to in front
of the chain of its parent, if it has one. -/
theorem Sound.exists_made (hs : s.Sound) (hnew : s.template? id = none) {parent : Option String}
    {inherited : Option (List String)} (hinherited : s.parentStems parent = .ok inherited)
    {text name : String} {block : Block} (hparse : parse text = .ok block)
    (hname : block.name = some name) :
    ∃ later, s.perform (.create id (.source text) ⟨parent, none, none⟩) = (.ok .done, later) ∧
      later.Sound ∧ later.registry.helpers = s.registry.helpers ∧
      later.chain id = ⟨block.content, [name]⟩ :: parent.elim [] s.chain := by
  have hnames : namesOf block [] = .ok [name] := by
    unfold namesOf
    rw [hname]
  have hcreate : s.perform (.create id (.source text) ⟨parent, none, none⟩) =
      (.ok .done, (s.record (.parsing text.utf8ByteSize)).add id
        ⟨some block, parent, [name], classStems [name] inherited⟩) := by
    show s.create id (.source text) ⟨parent, none, none⟩ = _
    rw [Session.create, if_neg (by rw [hnew]; simp), hinherited, blockOf, parseSource, hparse]
    dsimp only [Except.mapError]
    rw [show Options.names ⟨parent, none, none⟩ = [] from rfl, hnames]
  have hrecorded : (s.record (.parsing text.utf8ByteSize)).parentStems parent = .ok inherited :=
    hinherited
  have hsound := (hs.record (.parsing text.utf8ByteSize)).add_classStems hnew hrecorded
    (some block) [name]
  exact ⟨_, hcreate, hsound, rfl, chain_add_self⟩

/-- With a parent, the template extends it. -/
theorem Sound.exists_created (hs : s.Sound) (hnew : s.template? id = none)
    (hparent : s.template? parent = some template) {text name : String} {block : Block}
    (hparse : parse text = .ok block) (hname : block.name = some name) :
    ∃ later, s.perform (.create id (.source text) ⟨some parent, none, none⟩) = (.ok .done, later) ∧
      Extends s id parent ⟨block.content, [name]⟩ later := by
  obtain ⟨later, hcreate, hsound, hhelpers, hchain⟩ :=
    hs.exists_made hnew (parentStems_some hparent) hparse hname
  exact ⟨later, hcreate, hsound, hhelpers, hchain⟩

/-- A template with a parent extends it in its own session. -/
theorem Sound.extends_parent (hs : s.Sound) (hid : s.template? id = some template)
    (hparent : template.parent = some parent) : Extends s id parent template.generation s where
  sound := hs
  helpers := rfl
  chain := by
    rw [hs.chain_eq hid, hparent]
    rfl

end Making

section Answers

variable {s later : Session} {id parent : String} {generation : Generation}
  {inherited compiled : Compiled}

/-- The template is compiled over the compiled form of its parent. -/
theorem Extends.compileAfresh_eq (h : Extends s id parent generation later)
    (hparent : compileAfresh s.registry.helpers parent (s.chain parent) = .ok inherited) :
    compileAfresh later.registry.helpers id (later.chain id) =
      (compile s.registry.helpers (some inherited) generation.nodes).mapError .ofStop := by
  rw [h.helpers, h.chain]
  exact compileAfresh_cons (compileAfresh_eq_ok_iff.1 hparent)

/-- If a template compiles, then its parent does, and its nodes are compiled over it. -/
theorem Extends.exists_compiled (h : Extends s id parent generation later)
    (hne : s.chain parent ≠ []) (hcompile : (later.perform (.compile id)).1 = .ok .done) :
    ∃ inherited compiled,
      compileAfresh s.registry.helpers parent (s.chain parent) = .ok inherited ∧
      compile s.registry.helpers (some inherited) generation.nodes = .ok compiled := by
  have hdone : (compileAfresh later.registry.helpers id (later.chain id)).map
      (fun _ => Answer.done) = .ok .done :=
    (h.sound.compileTemplate_fst id).symm.trans hcompile
  cases hparent : compileAfresh s.registry.helpers parent (s.chain parent) with
  | error refusal =>
      rw [h.helpers, h.chain, compileAfresh_cons_of_error hne hparent] at hdone
      cases hdone
  | ok inherited =>
      rw [h.compileAfresh_eq hparent] at hdone
      cases hcompiled : compile s.registry.helpers (some inherited) generation.nodes with
      | error stop =>
          rw [hcompiled] at hdone
          cases hdone
      | ok compiled => exact ⟨inherited, compiled, rfl, hcompiled⟩

/-- Compiling a template succeeds where its nodes are compiled. -/
theorem Extends.compile_fst (h : Extends s id parent generation later)
    (hparent : compileAfresh s.registry.helpers parent (s.chain parent) = .ok inherited)
    (hcompiled : compile s.registry.helpers (some inherited) generation.nodes = .ok compiled) :
    (later.perform (.compile id)).1 = .ok .done := by
  refine (h.sound.compileTemplate_fst id).trans ?_
  rw [h.compileAfresh_eq hparent, hcompiled]
  rfl

/-- A template is rendered to its pieces, with the stems of its names in front of those of its
parent. -/
theorem Extends.render_fst (h : Extends s id parent generation later)
    (hparent : compileAfresh s.registry.helpers parent (s.chain parent) = .ok inherited)
    (hcompiled : compile s.registry.helpers (some inherited) generation.nodes = .ok compiled) :
    (later.perform (.render id)).1 = (compiled.pieces.mapError .ofRenderFault).map fun pieces =>
      .markup (writePieces (generation.blockNames.map classStem ++ chainStems (s.chain parent))
        pieces) := by
  refine (h.sound.renderTemplate id).1.trans ?_
  rw [renderAfresh_eq_map, piecesAfresh, h.compileAfresh_eq hparent, hcompiled, h.chain,
    chainStems_cons]
  rfl

/-- So is one of its elements. -/
theorem Extends.renderElement_fst (h : Extends s id parent generation later)
    (hparent : compileAfresh s.registry.helpers parent (s.chain parent) = .ok inherited)
    (hcompiled : compile s.registry.helpers (some inherited) generation.nodes = .ok compiled)
    (name : String) :
    (later.perform (.renderElement id name)).1 =
      ((compiled.elementPieces name).mapError .ofRenderFault).map fun pieces =>
        .element (pieces.map (writePieces
          (generation.blockNames.map classStem ++ chainStems (s.chain parent)))) := by
  refine (h.sound.renderElementOf id name).1.trans ?_
  rw [renderElementAfresh_eq_map, elementPiecesAfresh, h.compileAfresh_eq hparent, hcompiled,
    h.chain, chainStems_cons]
  rfl

end Answers

end Session

end BemMarkup

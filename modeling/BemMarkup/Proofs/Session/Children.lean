import BemMarkup.Proofs.Compilation.Frame
import BemMarkup.Proofs.Session.Extension

/-!
# What a child leaves to its parent

The output of a child starts at the root of its parent, so of what stands on the top level of the
child only the declarations count.  If none of them is of an element that the output of the parent
comes to, the child is rendered like a template that is derived from the parent with the block name
of the child.  And what declares nothing does not count at all: a child that has more of it, or
less, answers as before, and so do all templates below it in the chain.

## Main results

* `Session.Extends.render_of_unreached`: a child that declares nothing of what its parent reaches.
* `Session.Extends.exists_compileAfresh`: children that differ by inert nodes are compiled to one
  form.
* `Session.child_is_local`: both for the answers of sessions, with the templates below a child.
-/

namespace BemMarkup

open Document Template

/-- Below chains that compile to one form, the same generations compile alike. -/
theorem compileAfresh_append_congr {helpers : Table Helper} {id id' : String}
    {older older' : List Generation} {compiled : Compiled}
    (h : compileAfresh helpers id older = .ok compiled)
    (h' : compileAfresh helpers id' older' = .ok compiled) (later : List Generation)
    (name : String) :
    compileAfresh helpers name (later ++ older) = compileAfresh helpers name (later ++ older') := by
  rw [compileAfresh_eq_ok_iff, compileChain] at h h'
  have hchain : compileChain helpers ((later ++ older).map (·.nodes)).reverse =
      compileChain helpers ((later ++ older').map (·.nodes)).reverse := by
    rw [List.map_append, List.map_append, List.reverse_append, List.reverse_append, compileChain,
      compileChain, List.foldlM_append, List.foldlM_append, h, h']
  rw [compileAfresh, hchain, ← compileAfresh]

namespace Session

section Children

variable {s s' later : Session} {id id' parent parent' name : String}
  {generation generation' : Generation} {inherited : Compiled}

/-- A child that declares nothing of what its parent reaches is rendered like a template that is
derived with its name. -/
theorem Extends.render_of_unreached {new : String} {derived : Session} {compiled : Compiled}
    (h : Extends s id parent generation later)
    (hderived : Extends s new parent (.derived name) derived)
    (hname : generation.blockNames = [name])
    (hparent : compileAfresh s.registry.helpers parent (s.chain parent) = .ok inherited)
    (hcompiled : compile s.registry.helpers (some inherited) generation.nodes = .ok compiled)
    (hunreached : ∀ element, Enters s.registry.helpers generation.nodes element →
      ¬ inherited.Reaches element) :
    (later.perform (.render id)).1 = (derived.perform (.render new)).1 := by
  have hempty : compile s.registry.helpers (some inherited) (Generation.derived name).nodes =
      .ok (.extend (some inherited) [] .empty) := compile_nil _
  have halike := Compiled.Alike.extend_empty inherited []
  have hpieces : compiled.pieces = (Compiled.extend (some inherited) [] .empty).pieces :=
    (pieces_of_unreached hcompiled hunreached).trans halike.pieces
  rw [h.render_fst hparent hcompiled, hderived.render_fst hparent hempty, hname, hpieces]
  rfl

/-- Children of one parent that differ by inert nodes are compiled to one form. -/
theorem Extends.exists_compileAfresh {later' : Session}
    (h : Extends s id parent generation later)
    (h' : Extends s id' parent generation' later') (hne : s.chain parent ≠ [])
    (hcompile : (later.perform (.compile id)).1 = .ok .done)
    (hcompile' : (later'.perform (.compile id')).1 = .ok .done)
    (hnodes : SameButInert s.registry.helpers generation.nodes generation'.nodes) :
    ∃ compiled, compileAfresh later.registry.helpers id (later.chain id) = .ok compiled ∧
      compileAfresh later'.registry.helpers id' (later'.chain id') = .ok compiled := by
  obtain ⟨inherited, child, hparent, hchild⟩ := h.exists_compiled hne hcompile
  obtain ⟨inherited', child', hparent', hchild'⟩ := h'.exists_compiled hne hcompile'
  rw [hparent] at hparent'
  cases hparent'
  obtain rfl := hnodes.compile_eq hchild hchild'
  refine ⟨child, ?_, ?_⟩
  · rw [h.compileAfresh_eq hparent, hchild]
    rfl
  · rw [h'.compileAfresh_eq hparent, hchild']
    rfl

/-- Take a template that has a parent and compiles.

If it declares nothing that the output of the parent comes to, it is rendered like a template that
is derived from the parent with its name.

And take any other such template, in a run of its own, that has the same names and, but for inert
nodes, the same nodes, while its parent has the same chain.  Then the two compile, are rendered and
have their elements rendered with the same answers, and so are any two templates that come from
them by the same later generations. -/
theorem child_is_local (actions : List Action) {id parent : String} {template : Template}
    (hid : (Session.initial.run actions).2.template? id = some template)
    (hparent : template.parent = some parent)
    (hcompile : ((Session.initial.run actions).2.perform (.compile id)).1 = .ok .done) :
    let s := (Session.initial.run actions).2
    (∃ inherited, compileAfresh s.registry.helpers parent (s.chain parent) = .ok inherited ∧
      ∀ new name, s.template? new = none → template.blockNames = [name] →
        (∀ element, Enters s.registry.helpers template.nodes element →
          ¬ inherited.Reaches element) →
        ∃ derived, s.perform (.derive new parent name) = (.ok .done, derived) ∧
          (s.perform (.render id)).1 = (derived.perform (.render new)).1) ∧
    ∀ actions' id' parent' template',
      let s' := (Session.initial.run actions').2
      s'.registry.helpers = s.registry.helpers →
      s'.template? id' = some template' → template'.parent = some parent' →
      s'.chain parent' = s.chain parent → template'.blockNames = template.blockNames →
      SameButInert s.registry.helpers template.nodes template'.nodes →
      (s'.perform (.compile id')).1 = .ok .done →
      ∀ later lower lower', s.chain lower = later ++ s.chain id →
        s'.chain lower' = later ++ s'.chain id' →
        (s.perform (.compile lower)).1 = (s'.perform (.compile lower')).1 ∧
          SameAnswers s lower s' lower' := by
  intro s
  have hs : s.Sound := Sound.initial.run actions
  have hextends : Extends s id parent template.generation s := hs.extends_parent hid hparent
  obtain ⟨above, habove⟩ := hs.ordered.exists_parent hid hparent
  have hne : s.chain parent ≠ [] := by
    rw [hs.chain_eq habove]
    exact List.cons_ne_nil _ _
  constructor
  · obtain ⟨inherited, compiled, hinherited, hcompiled⟩ := hextends.exists_compiled hne hcompile
    refine ⟨inherited, hinherited, ?_⟩
    intro new name hnew hname hunreached
    obtain ⟨derived, hderive, hderived⟩ := hs.exists_derived hnew habove name
    refine ⟨derived, hderive, ?_⟩
    exact hextends.render_of_unreached hderived hname hinherited hcompiled hunreached
  · intro actions' id' parent' template' s' hhelpers hid' hparent' hchain hnames hnodes hcompile'
      later lower lower' hlower hlower'
    have hs' : s'.Sound := Sound.initial.run actions'
    have hextends' : Extends s id' parent template'.generation s' := by
      refine ⟨hs', hhelpers, ?_⟩
      rw [hs'.chain_eq hid', hparent', Option.elim_some, hchain]
    obtain ⟨compiled, hform, hform'⟩ :=
      hextends.exists_compileAfresh hextends' hne hcompile hcompile' hnodes
    rw [hhelpers] at hform'
    have hcompiled : compileAfresh s.registry.helpers lower (s.chain lower) =
        compileAfresh s'.registry.helpers lower' (s'.chain lower') := by
      rw [hhelpers, hlower, hlower', compileAfresh_append_congr hform hform' later lower]
      apply compileAfresh_id
      rw [hextends'.chain]
      exact List.append_ne_nil_of_right_ne_nil later (List.cons_ne_nil _ _)
    have hstems : chainStems (s.chain lower) = chainStems (s'.chain lower') := by
      have hown : template'.generation.blockNames = template.generation.blockNames := hnames
      rw [hlower, hlower', chainStems_append, chainStems_append, hextends.chain, hextends'.chain,
        chainStems_cons, chainStems_cons, hown]
    constructor
    · refine (hs.compileTemplate_fst lower).trans (.trans ?_ (hs'.compileTemplate_fst lower').symm)
      rw [hcompiled]
    · exact hs.sameAnswers_of_forms hs' hcompiled hstems

/-- An element with a text in it. -/
def withText (heading : Heading) : Node :=
  .element ⟨heading, some [.literal ⟨"n", false, ⟨0, ""⟩⟩], ⟨0, ""⟩⟩

/-- It enters its own name, if it has one. -/
theorem name_of_enters_withText {helpers : Table Helper} {heading : Heading} {entered : String}
    (hhelper : heading.isHelper = false) (h : Enters helpers [withText heading] entered) :
    heading.name? = some entered := by
  obtain ⟨fuel, trees, htrees, hentered⟩ := h
  have htext : expandWithin helpers fuel [.literal ⟨"n", false, ⟨0, ""⟩⟩] = some [.text _] :=
    expandWithin_singleton fun _ _ => expandNode_literal _
  rw [withText, expandWithin_element hhelper htext] at htrees
  cases htrees
  simpa [Expanded.declaredNamesOfAll, Expanded.declaredNames] using hentered

/-- A run that makes a card with a title, a child of it in which a note stands behind the nodes,
and a template that is derived from the child. -/
def notedCard (nodes : List Node) : List Action :=
  [.create "card" (.block titleBlock) ⟨none, none, none⟩,
    .create "noted" (.block ⟨none, some "noted",
      nodes ++ [withText ⟨false, some "aside", some [some "note"], none⟩], ⟨0, ""⟩⟩)
      ⟨some "card", none, none⟩,
    .derive "small" "noted" "small"]

/-- A comment and an element without a name. -/
def unseen : List Node :=
  [.comment ⟨"c", false, ⟨0, ""⟩⟩, withText ⟨false, some "div", none, none⟩]

/-- A child with a note is rendered like a derived template, and a comment and an element without
a name can be put in front of the note. -/
theorem noted_is_local :
    let s := (Session.initial.run (notedCard [])).2
    let s' := (Session.initial.run (notedCard unseen)).2
    (∃ derived, s.perform (.derive "plain" "card" "noted") = (.ok .done, derived) ∧
        (s.perform (.render "noted")).1 = (derived.perform (.render "plain")).1) ∧
      SameAnswers s "small" s' "small" := by
  intro s s'
  have hcompile : (s.perform (.compile "noted")).1 = .ok .done := rfl
  obtain ⟨⟨inherited, hinherited, hrender⟩, hinert⟩ :=
    child_is_local (notedCard []) rfl rfl hcompile
  have hmentions : inherited.mentions = ["title"] := by
    cases hinherited
    rfl
  constructor
  · apply hrender "plain" "noted" rfl rfl
    intro element hentered hreached
    obtain rfl := Option.some.inj (name_of_enters_withText rfl hentered)
    have hmem := hreached.mem_mentions
    rw [hmentions] at hmem
    simp at hmem
  · refine (hinert (notedCard unseen) "noted" "card" _ rfl rfl rfl rfl rfl ?_ rfl
      [.derived "small"] "small" "small" rfl rfl).2
    apply SameButInert.added (.comment _)
    apply SameButInert.added
    · apply Inert.element rfl
      intro name hentered
      cases name_of_enters_withText rfl hentered
    · exact .keep _ .nil

end Children

end Session

end BemMarkup

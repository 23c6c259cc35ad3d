import BemMarkup.Proofs.Compilation.Alike
import BemMarkup.Proofs.Session.Memory

/-!
# Derived templates are transparent

Deriving puts a template without a document into a chain.  To every later template of the chain,
however far down, it is as if the derived template were not there, except for one more block
name: the chain compiles when it did without and with the same mistake otherwise, and what it is
rendered to has the same pieces or the same fault.  Where classes are open in the pieces, the stem
of the additional name is filled in between those of the later templates and those of the earlier
ones.

## Main definitions

* `piecesAfresh`, `elementPiecesAfresh`: rendering with the classes left open.

## Main results

* `piecesAfresh_insert`: a derived template changes no piece.
* `Session.derived_is_transparent`: the answers of two sessions whose chains differ by a derived
  template.
-/

namespace BemMarkup

open Document Template

/-! ## Rendering with open classes -/

/-- The pieces of a chain. -/
def piecesAfresh (helpers : Table Helper) (id : String) (chain : List Generation) :
    Except Refusal (List Piece) := do
  let compiled ← compileAfresh helpers id chain
  compiled.pieces.mapError .ofRenderFault

/-- The pieces of an element of a chain; `none` if no template of the chain declares it. -/
def elementPiecesAfresh (helpers : Table Helper) (id : String) (chain : List Generation)
    (element : String) : Except Refusal (Option (List Piece)) := do
  let compiled ← compileAfresh helpers id chain
  (compiled.elementPieces element).mapError .ofRenderFault

section Pieces

variable (helpers : Table Helper) (id : String) (chain : List Generation)

/-- A chain is rendered by filling the stems of its names in. -/
theorem renderAfresh_eq_map : renderAfresh helpers id chain =
    (piecesAfresh helpers id chain).map fun pieces =>
      .markup (writePieces (chainStems chain) pieces) := by
  rw [renderAfresh, piecesAfresh]
  cases compileAfresh helpers id chain with
  | error refusal => rfl
  | ok compiled =>
      dsimp only [Compiled.render, bind, Except.bind]
      cases compiled.pieces <;> rfl

/-- So is one of its elements. -/
theorem renderElementAfresh_eq_map (element : String) :
    renderElementAfresh helpers id chain element =
      (elementPiecesAfresh helpers id chain element).map fun pieces =>
        .element (pieces.map (writePieces (chainStems chain))) := by
  rw [renderElementAfresh, elementPiecesAfresh]
  cases compileAfresh helpers id chain with
  | error refusal => rfl
  | ok compiled =>
      dsimp only [Compiled.renderElement?, bind, Except.bind]
      cases compiled.elementPieces element <;> rfl

end Pieces

/-! ## A derived template in a chain -/

/-- What a derived template adds to its chain: one name and no document. -/
def Generation.derived (name : String) : Generation := ⟨[], [name]⟩

section Derived

variable {helpers : Table Helper} {later earlier : List Generation}

/-- Where chains of documents agree, both are refused for the same reason or both compile, to
forms that are alike. -/
theorem compileAfresh_of_agree {chain chain' : List Generation}
    (h : Agree (compileChain helpers (chain.map (·.nodes)).reverse)
      (compileChain helpers (chain'.map (·.nodes)).reverse))
    (hne : chain ≠ []) (id id' : String) :
    (∃ refusal, compileAfresh helpers id chain = .error refusal ∧
        compileAfresh helpers id' chain' = .error refusal) ∨
      ∃ compiled compiled', compileAfresh helpers id chain = .ok compiled ∧
        compileAfresh helpers id' chain' = .ok compiled' ∧ compiled.Alike compiled' := by
  have hnone : compileChain helpers (chain.map (·.nodes)).reverse ≠ .ok none := by
    intro hnone
    exact compileChain_ne_none hnone (by simpa using hne) rfl
  unfold compileAfresh
  generalize compileChain helpers (chain.map (·.nodes)).reverse = outcome at h hnone
  generalize compileChain helpers (chain'.map (·.nodes)).reverse = outcome' at h
  cases h with
  | stopped stop => exact .inl ⟨.ofStop stop, rfl, rfl⟩
  | forms h =>
      cases h with
      | none => exact absurd rfl hnone
      | some h => exact .inr ⟨_, _, rfl, rfl, h⟩

/-- A derived template leaves the outcome of a chain as it is. -/
theorem compileAfresh_insert (hearlier : earlier ≠ []) (id id' name : String) :
    (∃ refusal, compileAfresh helpers id (later ++ earlier) = .error refusal ∧
        compileAfresh helpers id' (later ++ .derived name :: earlier) = .error refusal) ∨
      ∃ compiled compiled', compileAfresh helpers id (later ++ earlier) = .ok compiled ∧
        compileAfresh helpers id' (later ++ .derived name :: earlier) = .ok compiled' ∧
        compiled.Alike compiled' := by
  have hdocuments : (earlier.map (·.nodes)).reverse ≠ [] := by simpa using hearlier
  refine compileAfresh_of_agree ?_ (by simp [hearlier]) id id'
  simpa [Generation.derived] using agree_insert_empty hdocuments (later.map (·.nodes)).reverse

/-- It compiles with the same mistake or without one. -/
theorem compileAfresh_map_insert (hearlier : earlier ≠ []) (id id' name : String) :
    ((compileAfresh helpers id (later ++ earlier)).map fun _ => Answer.done) =
      (compileAfresh helpers id' (later ++ .derived name :: earlier)).map fun _ => Answer.done := by
  obtain ⟨refusal, h, h'⟩ | ⟨compiled, compiled', h, h', -⟩ :=
    compileAfresh_insert hearlier id id' name
  · rw [h, h']
  · rw [h, h']
    rfl

/-- It has the same pieces. -/
theorem piecesAfresh_insert (hearlier : earlier ≠ []) (id id' name : String) :
    piecesAfresh helpers id (later ++ earlier) =
      piecesAfresh helpers id' (later ++ .derived name :: earlier) := by
  rw [piecesAfresh, piecesAfresh]
  obtain ⟨refusal, h, h'⟩ | ⟨compiled, compiled', h, h', halike⟩ :=
    compileAfresh_insert hearlier id id' name
  · rw [h, h']
  · rw [h, h']
    exact congrArg (Except.mapError Refusal.ofRenderFault) halike.pieces

/-- So has every element. -/
theorem elementPiecesAfresh_insert (hearlier : earlier ≠ []) (id id' name element : String) :
    elementPiecesAfresh helpers id (later ++ earlier) element =
      elementPiecesAfresh helpers id' (later ++ .derived name :: earlier) element := by
  rw [elementPiecesAfresh, elementPiecesAfresh]
  obtain ⟨refusal, h, h'⟩ | ⟨compiled, compiled', h, h', halike⟩ :=
    compileAfresh_insert hearlier id id' name
  · rw [h, h']
  · rw [h, h']
    exact congrArg (Except.mapError Refusal.ofRenderFault) (halike.elementPieces element)

/-- The stems of the later templates stand in front of those of the earlier ones. -/
theorem chainStems_append (later earlier : List Generation) :
    chainStems (later ++ earlier) =
      later.flatMap (fun generation => generation.blockNames.map classStem) ++
        chainStems earlier := by
  rw [chainStems, chainStems, List.flatMap_append, List.append_assoc]

theorem chainStems_derived (name : String) (earlier : List Generation) :
    chainStems (.derived name :: earlier) = classStem name :: chainStems earlier :=
  chainStems_cons _ earlier

end Derived

namespace Session

section Transparent

/-- Deriving succeeds where the identifier is new and the parent is there, and the chain of the
new template is that of its parent with one name more. -/
theorem exists_derive {s : Session} {id parent : String} {template : Template}
    (hnew : s.template? id = none) (hparent : s.template? parent = some template) (name : String) :
    ∃ next, s.perform (.derive id parent name) = (.ok .done, next) ∧
      next.chain id = .derived name :: s.chain parent := by
  have hinherited : s.parentStems (some parent) = .ok (some template.stems) := by
    rw [parentStems, hparent]
  exact ⟨_, derive_eq hnew hinherited name, chain_add_self⟩

/-- Take two chains of which one has a derived template more, anywhere but at its top.  Wherever
such chains occur in runs with the same helpers, both compile, or neither does and for the same
reason; both are rendered to the same pieces, or neither is and for the same reason; and so it is
for every element.  The classes that are open in the pieces are filled in from the same stems, but
for the stem of the derived template's name between those of the later templates and those of the
earlier ones. -/
theorem derived_is_transparent (actions actions' : List Action) (id id' name : String)
    (later earlier : List Generation) (hearlier : earlier ≠ [])
    (hchain : (Session.initial.run actions).2.chain id = later ++ earlier)
    (hchain' : (Session.initial.run actions').2.chain id' = later ++ .derived name :: earlier)
    (hhelpers : (Session.initial.run actions).2.registry.helpers =
      (Session.initial.run actions').2.registry.helpers) :
    let s := (Session.initial.run actions).2
    let s' := (Session.initial.run actions').2
    let pieces := piecesAfresh s.registry.helpers id (later ++ earlier)
    let elementPieces := elementPiecesAfresh s.registry.helpers id (later ++ earlier)
    let laterStems := later.flatMap fun generation => generation.blockNames.map (· ++ "__")
    let earlierStems := chainStems earlier
    (s.perform (.compile id)).1 = (s'.perform (.compile id')).1 ∧
      pieces = piecesAfresh s'.registry.helpers id' (later ++ .derived name :: earlier) ∧
      elementPieces =
        elementPiecesAfresh s'.registry.helpers id' (later ++ .derived name :: earlier) ∧
      (s.perform (.render id)).1 =
        pieces.map (fun pieces => .markup (writePieces (laterStems ++ earlierStems) pieces)) ∧
      (s'.perform (.render id')).1 = pieces.map (fun pieces =>
        .markup (writePieces (laterStems ++ (name ++ "__") :: earlierStems) pieces)) ∧
      (∀ element,
        (s.perform (.renderElement id element)).1 = (elementPieces element).map (fun pieces =>
          .element (pieces.map (writePieces (laterStems ++ earlierStems)))) ∧
        (s'.perform (.renderElement id' element)).1 = (elementPieces element).map (fun pieces =>
          .element (pieces.map (writePieces (laterStems ++ (name ++ "__") :: earlierStems))))) ∧
      ∀ new parent template, s.template? new = none → s.template? parent = some template →
        ∃ next, s.perform (.derive new parent name) = (.ok .done, next) ∧
          next.chain new = .derived name :: s.chain parent := by
  intro s s' pieces elementPieces laterStems earlierStems
  have hs : s.Sound := Sound.initial.run actions
  have hs' : s'.Sound := Sound.initial.run actions'
  have hpieces : pieces =
      piecesAfresh s'.registry.helpers id' (later ++ .derived name :: earlier) := by
    rw [← hhelpers]
    exact piecesAfresh_insert hearlier id id' name
  have helements : elementPieces =
      elementPiecesAfresh s'.registry.helpers id' (later ++ .derived name :: earlier) := by
    rw [← hhelpers]
    exact funext (elementPiecesAfresh_insert hearlier id id' name)
  have hstems : chainStems (s.chain id) = laterStems ++ earlierStems := by
    rw [hchain, chainStems_append]
    rfl
  have hstems' : chainStems (s'.chain id') = laterStems ++ (name ++ "__") :: earlierStems := by
    rw [hchain', chainStems_append, chainStems_derived]
    rfl
  refine ⟨?_, hpieces, helements, ?_, ?_, fun element => ⟨?_, ?_⟩,
    fun new parent template hnew hparent => exists_derive hnew hparent name⟩
  · refine (hs.compileTemplate_fst id).trans (.trans ?_ (hs'.compileTemplate_fst id').symm)
    rw [hchain, hchain', ← hhelpers]
    exact compileAfresh_map_insert hearlier id id' name
  · refine (hs.renderTemplate id).1.trans ?_
    rw [renderAfresh_eq_map, hstems, hchain]
  · refine (hs'.renderTemplate id').1.trans ?_
    rw [renderAfresh_eq_map, hstems', hchain', hpieces]
  · refine (hs.renderElementOf id element).1.trans ?_
    rw [renderElementAfresh_eq_map, hstems, hchain]
  · refine (hs'.renderElementOf id' element).1.trans ?_
    rw [renderElementAfresh_eq_map, hstems', hchain', helements]

/-- A heading that takes over what its template inherits. -/
def keptTitle : Block :=
  ⟨none, some "news", [.element ⟨⟨false, none, some [some "title"], none⟩,
    some [.superCall ⟨none, ⟨0, ""⟩⟩], ⟨0, ""⟩⟩], ⟨0, ""⟩⟩

/-- A run that extends a template directly, and once more a template that is derived from it. -/
def extendedTwice : List Action :=
  [.create "card" (.block titleBlock) ⟨none, none, none⟩,
    .create "plain" (.block keptTitle) ⟨some "card", none, none⟩,
    .derive "small" "card" "small",
    .create "far" (.block keptTitle) ⟨some "small", none, none⟩]

theorem extendedTwice_is_transparent :
    let s := (Session.initial.run extendedTwice).2
    let pieces := piecesAfresh s.registry.helpers "plain" (s.chain "plain")
    (s.perform (.compile "plain")).1 = (s.perform (.compile "far")).1 ∧
      (s.perform (.render "plain")).1 = pieces.map (fun pieces =>
        .markup (writePieces ["news__", "card__", ""] pieces)) ∧
      (s.perform (.render "far")).1 = pieces.map (fun pieces =>
        .markup (writePieces ["news__", "small__", "card__", ""] pieces)) := by
  obtain ⟨hcompile, -, -, hplain, hfar, -⟩ :=
    derived_is_transparent extendedTwice extendedTwice "plain" "far" "small"
      [⟨keptTitle.content, ["news"]⟩] [⟨titleBlock.content, ["card"]⟩]
      (List.cons_ne_nil _ _) rfl rfl rfl
  exact ⟨hcompile, hplain, hfar⟩

end Transparent

end Session

end BemMarkup

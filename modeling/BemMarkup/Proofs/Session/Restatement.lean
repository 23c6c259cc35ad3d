import BemMarkup.Proofs.Compilation.Restatement
import BemMarkup.Proofs.Document.Printing
import BemMarkup.Proofs.Session.Extension

/-!
# Overriding an element by its own super calls

The source `#c /n(super!){super!}` gives a template that writes an element of its parent again.
It is parsed for every name that an element can have, and the template answers like one that is
derived from the same parent with the same block name, for all elements as well as for the whole.

## Main results

* `Document.parse_restatingSource`: the source is parsed as it is meant.
* `Session.restated_like_derived`: the template answers like a derived one.
-/

namespace BemMarkup

open Document Template

namespace Document

/-- The source of a block with the name `c` that writes an element again. -/
def restatingSource (name : String) : String := "#c /" ++ name ++ "(super!)\x7bsuper!\x7d"

/-- The element in this source. -/
def restatingHeading (name : String) : HeadingDraft :=
  ⟨false, none, some [some name.toList], some [.superCall ⟨none⟩]⟩

section Source

variable {name : String}

theorem restatingHeading_prints (hname : NameClass.element.IsName name.toList) :
    (restatingHeading name).Prints
      ('/' :: name.toList ++ ('(' :: (SuperToken.lexeme ⟨none⟩ ++ [')']))) := by
  have hcall : EntryDraft.Prints (.superCall ⟨none⟩) (SuperToken.lexeme ⟨none⟩) :=
    .superCall (by simp [SuperToken.IsValid])
  have hlist : PrintsAttributes (some [.superCall ⟨none⟩])
      ('(' :: ([] ++ ((SuperToken.lexeme ⟨none⟩ ++ []) ++ [')']))) :=
    .entries (.gap .nil) (.last hcall (.gap .nil)) (by decide)
  have hslot : IsSlot (some name.toList) := by
    rintro _ ⟨⟩
    exact hname
  have hnames : PrintsNames (some [some name.toList]) ('/' :: ([] ++ name.toList)) :=
    .some .nil (.last hslot)
  have hheading : (restatingHeading name).Prints ([] ++ ([] ++ ('/' :: ([] ++ name.toList) ++
      ([] ++ '(' :: ([] ++ ((SuperToken.lexeme ⟨none⟩ ++ []) ++ [')'])))))) :=
    .intro (by simp [restatingHeading]) (by simp [restatingHeading]) .nil (fun _ => rfl) hnames
      .nil (by simp) hlist
  simpa using hheading

/-- The content of the source is written down behind its declaration. -/
theorem restating_prints (hname : NameClass.element.IsName name.toList) :
    Prints false true [.element (restatingHeading name) (some [.superCall ⟨none⟩])]
      (" /".toList ++ name.toList ++ "(super!)\x7bsuper!\x7d".toList) := by
  have hinside : Prints true false [.superCall ⟨none⟩]
      ([] ++ (SuperToken.lexeme ⟨none⟩ ++ [])) :=
    .flat .nil (.superCall (by simp [SuperToken.IsValid])) (separatedFrom_nil False.elim) (.nil .nil)
  have hspace : Blank [' '] := .singleton (by decide)
  have hall := Prints.braced hspace (restatingHeading_prints hname) .nil hinside (by simp)
    (Prints.nil .nil : Prints false true [] [])
  simpa [SuperToken.lexeme] using hall

/-- Nodes that restate an element but for their places restate it. -/
theorem restates_of_bareAll {nodes : List Node}
    (h : Node.bareAll nodes =
      Draft.nodes [.element (restatingHeading name) (some [.superCall ⟨none⟩])]) :
    Restates name nodes := by
  have hheading : (restatingHeading name).heading =
      ⟨false, none, some [some name], some ⟨some ⟨none, .blank⟩, [], .blank⟩⟩ := by
    have hslots : [some name.toList].map (·.map String.ofList) = [some name] := by simp
    show Heading.mk false none (some ([some name.toList].map (·.map String.ofList))) _ = _
    rw [hslots]
    rfl
  rw [Draft.nodes, Draft.node, Draft.nodes, Draft.nodes, Draft.node, Draft.nodes, hheading] at h
  obtain ⟨node, rfl, hnode⟩ := eq_singleton_of_bareAll h
  obtain ⟨heading, content, whole, rfl, hbare, hcontent⟩ := eq_element_of_bare hnode
  obtain ⟨inner, rfl, hinner⟩ := eq_singleton_of_bareAll hcontent
  obtain ⟨⟨target, inBraces⟩, rfl, hcall⟩ := eq_superCall_of_bare hinner
  obtain rfl : target = none := congrArg SuperCall.target hcall
  obtain ⟨isHelper, tag, names, attributes⟩ := heading
  rw [Heading.bare] at hbare
  cases attributes with
  | none => cases hbare
  | some group =>
      obtain ⟨superCall, settings, list⟩ := group
      cases superCall with
      | none => cases hbare
      | some call =>
          obtain ⟨target, inList⟩ := call
          cases hbare
          exact .intro inList inBraces list whole

/-- The source is parsed for every name that an element can have. -/
theorem parse_restatingSource (hname : NameClass.element.IsName name.toList) :
    ∃ block, parse (restatingSource name) = .ok block ∧ block.name = some "c" ∧
      Restates name block.content := by
  have hsource : restatingSource name = String.ofList ('#' :: (['c'] ++
      (" /".toList ++ name.toList ++ "(super!)\x7bsuper!\x7d".toList))) := by
    rw [← String.toList_inj, String.toList_ofList]
    simp [restatingSource, String.toList_append]
  have hblock : NameClass.block.IsName ['c'] := .inl ⟨'c', [], rfl, by decide, by simp⟩
  obtain ⟨block, hparse, hname', hbare⟩ := exists_parse_of_declared hblock
    (.inr ⟨' ', _, rfl, by decide⟩) (restating_prints hname)
  rw [hsource]
  exact ⟨block, hparse, hname', restates_of_bareAll hbare⟩

end Source

end Document

namespace Session

/-- Let a template compile, and let an element of it be such that it can be written again.  The
source that writes it again by its super calls makes a template with this parent.  The template
compiles, and all its answers are those of a template that is derived from the same parent with
the same block name. -/
theorem restated_like_derived (actions : List Action) {id id' parent name : String}
    {template : Template} {compiled : Compiled} {fuel : Nat} {levels below : List Template.Level}
    {occurrence : Occurrence} {heading : Heading} {hasBraces : Bool}
    (hid : (Session.initial.run actions).2.template? id = none)
    (hid' : (Session.initial.run actions).2.template? id' = none)
    (hparent : (Session.initial.run actions).2.template? parent = some template)
    (hcompiled : compileAfresh (Session.initial.run actions).2.registry.helpers parent
      ((Session.initial.run actions).2.chain parent) = .ok compiled)
    (hlevels : (((Session.initial.run actions).2.chain parent).map (·.nodes)).reverse.mapM
      (expandWithin (Session.initial.run actions).2.registry.helpers fuel) = some levels)
    (hname : NameClass.element.IsName name.toList)
    (hrestatable : Restatable levels.reverse name occurrence below heading hasBraces) :
    let s := (Session.initial.run actions).2
    ∃ restated derived,
      s.perform (.create id (.source ("#c /" ++ name ++ "(super!)\x7bsuper!\x7d"))
          ⟨some parent, none, none⟩) = (.ok .done, restated) ∧
        s.perform (.derive id' parent "c") = (.ok .done, derived) ∧
        (restated.perform (.compile id)).1 = .ok .done ∧
        SameAnswers restated id derived id' := by
  intro s
  have hs : s.Sound := Sound.initial.run actions
  obtain ⟨block, hparse, hblock, hrestates⟩ := parse_restatingSource hname
  obtain ⟨restated, hcreate, hextends⟩ := hs.exists_created hid hparent hparse hblock
  obtain ⟨derived, hderive, hextends'⟩ := hs.exists_derived hid' hparent "c"
  obtain ⟨child, hchild, hpieces, helements⟩ :=
    hrestatable.exists_compile (compileAfresh_eq_ok_iff.1 hcompiled) hlevels hrestates
  have hempty : compile s.registry.helpers (some compiled) (Generation.derived "c").nodes =
      .ok (.extend (some compiled) [] .empty) := compile_nil _
  have halike := Compiled.Alike.extend_empty compiled []
  refine ⟨restated, derived, hcreate, hderive, hextends.compile_fst hcompiled hchild, ?_, ?_⟩
  · rw [hextends.render_fst hcompiled hchild, hextends'.render_fst hcompiled hempty, hpieces,
      halike.pieces]
    rfl
  · intro element
    rw [hextends.renderElement_fst hcompiled hchild, hextends'.renderElement_fst hcompiled hempty,
      helements, halike.elementPieces]
    rfl

/-- The content of `/card(super!,b=2){super!}`. -/
def filling : List Node :=
  [namedElement none "card" (attributesOf plainSuper [⟨"b", "2"⟩]) (some [.superCall plainSuper])]

/-- A run that makes a template with a card, and a child with another attribute for it. -/
def filledCard : List Action :=
  [.create "base" (.block ⟨none, some "a", card, ⟨0, ""⟩⟩) ⟨none, none, none⟩,
    .create "filled" (.block ⟨none, some "b", filling, ⟨0, ""⟩⟩) ⟨some "base", none, none⟩]

theorem filledCard_restated :
    let s := (Session.initial.run filledCard).2
    ∃ restated derived,
      s.perform (.create "again" (.source "#c /card(super!)\x7bsuper!\x7d")
          ⟨some "filled", none, none⟩) = (.ok .done, restated) ∧
        s.perform (.derive "small" "filled" "c") = (.ok .done, derived) ∧
        (restated.perform (.compile "again")).1 = .ok .done ∧
        SameAnswers restated "again" derived "small" := by
  have hname : NameClass.element.IsName "card".toList :=
    .inl ⟨'c', ['a', 'r', 'd'], rfl, rfl, List.all_eq_true.1 rfl⟩
  obtain ⟨lower, hlevels⟩ : ∃ lower,
      (((Session.initial.run filledCard).2.chain "filled").map (·.nodes)).reverse.mapM
          (expandWithin (Session.initial.run filledCard).2.registry.helpers 0) =
        some [lower, [.element ⟨false, none, some [some "card"],
          attributesOf plainSuper [⟨"b", "2"⟩]⟩ true [.superCall none]]] := ⟨_, rfl⟩
  have hsource : "#c /card(super!)\x7bsuper!\x7d" =
      "#c /" ++ "card" ++ "(super!)\x7bsuper!\x7d" := by decide
  rw [hsource]
  refine restated_like_derived filledCard rfl rfl rfl rfl hlevels hname
    ⟨rfl, rfl, rfl, .inl rfl, ?_⟩
  intro heading hheading
  cases hheading

end Session

end BemMarkup

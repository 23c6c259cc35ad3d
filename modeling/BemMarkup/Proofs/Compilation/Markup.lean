import BemMarkup.Proofs.Compilation.Derivation
import BemMarkup.Proofs.Rendering.Balance
import BemMarkup.Proofs.Session.Memory

/-!
# Parsed documents render to balanced markup

Opening and closing tags are produced in different places.  An element without a name leaves
them among the fragments around it, an element with a name in its renderer, and a region has
none.  A tag may come from an ancestor, content may be spliced in from one, and attributes
may be set on top of those of one.  In all of these places the fragments stay balanced, and
what is handed on between templates are names, attributes with names, and balanced content.

This needs documents whose names are names, which those from sources are, and texts without
an opening bracket, since texts are written as they are.

## Main definitions

* `Compiled.Clean`: a compiled template that consists of names and of balanced fragments.
* `Generation.Parsed`: a template that is made of a source, with the name declared there.

## Main results

* `Compiles.balances`: compilation makes balanced fragments of such documents.
* `markup_balanced`: what a session renders of such a chain is balanced.
-/

namespace BemMarkup.Template

open Document

/-! ## Properties of all values -/

/-- A property of all values of a table. -/
def Table.All {α : Type} (p : α → Prop) (table : Table α) : Prop :=
  ∀ name value, table.get? name = some value → p value

/-- A property of all values that are found in layers. -/
def Layers.All {α : Type} (p : α → Prop) (layers : Layers α) : Prop :=
  ∀ name value, layers.get? name = some value → p value

section All

variable {α : Type} {p : α → Prop}

theorem Table.All.empty : (Table.empty : Table α).All p := by
  intro name value h
  cases h

theorem Table.All.insert {table : Table α} (h : table.All p) (name : String) {value : α}
    (hvalue : p value) : (table.insert name value).All p := by
  intro key other hother
  rw [Table.get?_insert] at hother
  split at hother
  · cases hother
    exact hvalue
  · exact h key other hother

theorem Layers.All.nil : Layers.All p [] := by
  intro name value h
  cases h

theorem Layers.All.cons {table : Table α} {layers : Layers α} (h : table.All p)
    (h' : Layers.All p layers) : Layers.All p (table :: layers) := by
  intro name value hvalue
  rw [Layers.get?_cons, Option.or_eq_some_iff] at hvalue
  rcases hvalue with hvalue | ⟨-, hvalue⟩
  · exact h name value hvalue
  · exact h' name value hvalue

end All

/-! ## Clean templates -/

/-- Attributes with harmless names. -/
def AttributeList.Clean (list : AttributeList) : Prop := ∀ slot ∈ list.slots, Harmless slot.name

/-- A renderer of balanced fragments, whose content is balanced by itself. -/
def Renderer.Clean (stems : List String) (renderer : Renderer) : Prop :=
  Balances stems renderer.fragments ∧ Balances stems renderer.content

/-- Declarations of names and of balanced fragments. -/
structure Declarations.Clean (stems : List String) (declared : Declarations) : Prop where
  /-- Tags are names. -/
  tags : declared.tags.All fun tag => NameClass.tag.IsName tag.toList
  /-- Attributes have names. -/
  attributes : declared.attributes.All AttributeList.Clean
  /-- Renderers are balanced. -/
  renderers : declared.renderers.All (Renderer.Clean stems)

/-- A template of names and of balanced fragments. -/
structure Compiled.Clean (stems : List String) (compiled : Compiled) : Prop where
  /-- The root is balanced. -/
  root : Balances stems compiled.root
  /-- Tags are names. -/
  tags : Layers.All (fun tag => NameClass.tag.IsName tag.toList) compiled.tags
  /-- Attributes have names. -/
  attributes : Layers.All AttributeList.Clean compiled.attributes
  /-- Renderers are balanced. -/
  renderers : Layers.All (Renderer.Clean stems) compiled.renderers

section Clean

variable {stems : List String}

theorem AttributeList.Clean.empty : AttributeList.empty.Clean := by
  intro slot hslot
  cases hslot

theorem AttributeList.Clean.extend {list : AttributeList} (h : list.Clean)
    {entries : List Attribute} (hentries : ∀ entry ∈ entries, Harmless entry.name) :
    (list.extend entries).Clean := by
  induction entries generalizing list with
  | nil => exact h
  | cons entry entries ih =>
      rw [List.forall_mem_cons] at hentries
      rw [AttributeList.extend_cons]
      refine ih ?_ hentries.2
      intro slot hslot
      have hname : slot.name ∈ (list.set entry).names := List.mem_map_of_mem hslot
      have hlist : ∀ name ∈ list.names, Harmless name := by
        intro name hname
        obtain ⟨other, hother, rfl⟩ := List.mem_map.1 hname
        exact h other hother
      rw [AttributeList.names_set] at hname
      split at hname
      · exact hlist _ hname
      · rcases List.mem_append.1 hname with hname | hname
        · exact hlist _ hname
        · rw [List.mem_singleton] at hname
          rw [hname]
          exact hentries.1

theorem Declarations.Clean.empty : Declarations.empty.Clean stems :=
  ⟨.empty, .empty, .empty⟩

theorem Declarations.Clean.announce {declared : Declarations} (h : declared.Clean stems)
    (name : String) {tag : String} (htag : NameClass.tag.IsName tag.toList)
    {attributes : AttributeList} (hattributes : attributes.Clean) :
    (declared.announce name tag attributes).Clean stems :=
  ⟨h.tags.insert name htag, h.attributes.insert name hattributes, h.renderers⟩

theorem Declarations.Clean.define {declared : Declarations} (h : declared.Clean stems)
    (name : String) {renderer : Renderer} (hrenderer : renderer.Clean stems) :
    (declared.define name renderer).Clean stems :=
  ⟨h.tags, h.attributes, h.renderers.insert name hrenderer⟩

theorem Renderer.Clean.region {content : List Fragment} (h : Balances stems content) :
    (Renderer.region content).Clean stems := by
  refine ⟨?_, h⟩
  simpa [Renderer.fragments, Renderer.region] using h

/-- A clean template that is extended by clean declarations stays clean. -/
theorem Compiled.Clean.extend {parent : Option Compiled}
    (hparent : ∀ compiled, parent = some compiled → compiled.Clean stems)
    {root : List Fragment} (hroot : Balances stems root) {declared : Declarations}
    (hdeclared : declared.Clean stems) :
    (Compiled.extend parent root declared).Clean stems := by
  cases parent with
  | none =>
      exact ⟨hroot, .cons hdeclared.tags .nil, .cons hdeclared.attributes .nil,
        .cons hdeclared.renderers .nil⟩
  | some above =>
      have habove := hparent above rfl
      exact ⟨habove.root, .cons hdeclared.tags habove.tags,
        .cons hdeclared.attributes habove.attributes,
        .cons hdeclared.renderers habove.renderers⟩

end Clean

/-! ## Compilation -/

/-- A node whose heading is well named if it is an element, and that starts no tag if it is a
text. -/
structure Quiet (node : Node) : Prop where
  /-- Headings are well named. -/
  named : node.WellNamed
  /-- Texts start no tag. -/
  text : ∀ literal, node = .literal literal → '<' ∉ (Text.unescape literal.value).toList

section Compilation

variable {stems : List String} {parent : Option Compiled} {scope : Option String}
  {before after : Declarations} {nodes : List Node} {fragments : List Fragment}

/-- The only helper gives back the content of its element. -/
theorem eq_content_of_requireHelper {element : Element} {helper : Helper}
    (h : requireHelper Registry.initial.helpers element = .ok helper) : helper = .content := by
  obtain ⟨tag, -, hget⟩ := requireHelper_eq_ok h
  rw [Registry.initial, Table.get?_insert] at hget
  split at hget
  · cases hget
    rfl
  · cases hget

/-- Whether it is written or taken over, a tag is a name, and so are the names of the
attributes. -/
theorem clean_of_namedHeading (hparent : ∀ compiled, parent = some compiled → compiled.Clean stems)
    (hbefore : before.Clean stems) {heading : Heading} (hnamed : heading.WellNamed)
    {name tag : String} {offset : Nat} {attributes : AttributeList}
    (h : namedHeading parent before heading name offset = .ok (tag, attributes)) :
    NameClass.tag.IsName tag.toList ∧ attributes.Clean := by
  obtain ⟨htag, rfl⟩ := namedHeading_eq_ok h
  constructor
  · rw [Option.or_eq_some_iff, Option.or_eq_some_iff] at htag
    rcases htag with htag | ⟨-, htag | ⟨-, htag⟩⟩
    · exact hnamed.tag tag htag
    · exact hbefore.tags name tag htag
    · obtain ⟨compiled, rfl, hget⟩ := Option.bind_eq_some_iff.1 htag
      exact (hparent compiled rfl).tags name tag hget
  · refine .extend ?_ fun entry hentry => .of_isName (hnamed.attributes entry hentry)
    cases heading.superCall? with
    | none => exact .empty
    | some call =>
        cases parent with
        | none => exact .empty
        | some compiled =>
            rw [Option.map_some, Option.getD_some, Option.bind_some]
            cases hget : compiled.attributes.get? (call.target.getD name) with
            | none => exact .empty
            | some attributes => exact (hparent compiled rfl).attributes _ _ hget

theorem clean_of_unnamedHeading {heading : Heading} (hnamed : heading.WellNamed) {tag : String}
    {offset : Nat} {attributes : AttributeList}
    (h : unnamedHeading parent heading offset = .ok (tag, attributes)) :
    NameClass.tag.IsName tag.toList ∧ attributes.Clean := by
  obtain ⟨htag, rfl⟩ := unnamedHeading_eq_ok h
  exact ⟨hnamed.tag tag htag,
    .extend .empty fun entry hentry => .of_isName (hnamed.attributes entry hentry)⟩

/-- What is compiled for an element is balanced if what is compiled for its children is. -/
theorem clean_ofElement (hstems : ∀ stem ∈ stems, Harmless stem) {element : Element}
    (hnamed : element.heading.WellNamed) {tag : String} {attributes : AttributeList}
    (hheading : NameClass.tag.IsName tag.toList ∧ attributes.Clean)
    {content : List Fragment} (hcontent : Balances stems content)
    (hcompiles : Compiles Registry.initial.helpers parent scope before
      (Node.element element).children content after) :
    (Renderer.ofElement tag attributes element.heading.names element.content.isSome
      content).Clean stems := by
  refine ⟨.ofElement hstems hheading.1 hheading.2 ?_ hcontent ?_, hcontent⟩
  · intro slots name hslots hname
    exact .of_isName (hnamed.names slots name hslots hname)
  · intro hbraces
    rw [Option.isSome_eq_false_iff, Option.isNone_iff_eq_none] at hbraces
    rw [Node.children, hbraces, Option.getD_none] at hcompiles
    exact hcompiles.of_nil.1

/-- Compilation makes balanced fragments, and clean declarations. -/
theorem Compiles.balances (hstems : ∀ stem ∈ stems, Harmless stem)
    (hparent : ∀ compiled, parent = some compiled → compiled.Clean stems)
    (h : Compiles Registry.initial.helpers parent scope before nodes fragments after)
    (hnodes : Everywhere Quiet nodes) (hbefore : before.Clean stems) :
    Balances stems fragments ∧ after.Clean stems := by
  induction h with
  | nil | comment => exact ⟨.nil, hbefore⟩
  | cons _ _ ihFirst ihRest =>
      cases hnodes with
      | cons hnode hchildren hrest =>
          obtain ⟨hfirst, hmiddle⟩ := ihFirst (.cons hnode hchildren .nil) hbefore
          obtain ⟨hlast, hafter⟩ := ihRest hrest hmiddle
          exact ⟨hfirst.append hlast, hafter⟩
  | literal literal =>
      cases hnodes with
      | cons hnode _ _ => exact ⟨.text (.of_text (hnode.text literal rfl)), hbefore⟩
  | superCall hcontent =>
      obtain ⟨compiled, around, renderer, rfl, -, hget, rfl⟩ := superContent_eq_ok hcontent
      exact ⟨.splice ((hparent compiled rfl).renderers _ _ hget).2, hbefore⟩
  | named _ _ hheading hcompiles ih =>
      cases hnodes with
      | cons hnode hchildren _ =>
          have hnamed := hnode.named _ rfl
          have hclean := clean_of_namedHeading hparent hbefore hnamed hheading
          obtain ⟨hcontent, hinside⟩ := ih hchildren (hbefore.announce _ hclean.1 hclean.2)
          exact ⟨.call _,
            hinside.define _ (clean_ofElement hstems hnamed hclean hcontent hcompiles)⟩
  | unnamed _ _ hheading hcompiles ih =>
      cases hnodes with
      | cons hnode hchildren _ =>
          have hnamed := hnode.named _ rfl
          have hclean := clean_of_unnamedHeading hnamed hheading
          obtain ⟨hcontent, hinside⟩ := ih hchildren hbefore
          exact ⟨(clean_ofElement hstems hnamed hclean hcontent hcompiles).1, hinside⟩
  | region _ hrequire _ _ ih =>
      cases hnodes with
      | cons _ hchildren _ =>
          cases eq_content_of_requireHelper hrequire
          obtain ⟨hcontent, hinside⟩ := ih hchildren hbefore
          exact ⟨.call _, hinside.define _ (.region hcontent)⟩
  | helper _ hrequire _ _ ih =>
      cases hnodes with
      | cons _ hchildren _ =>
          cases eq_content_of_requireHelper hrequire
          exact ih hchildren hbefore

end Compilation

/-! ## Chains -/

section Chains

variable {stems : List String} {documents : List (List Node)} {compiled : Compiled}

/-- A chain of such documents compiles to a clean template. -/
theorem Compiled.Clean.of_compileChain (hstems : ∀ stem ∈ stems, Harmless stem)
    (hdocuments : ∀ nodes ∈ documents, Everywhere Quiet nodes)
    (h : compileChain Registry.initial.helpers documents = .ok (some compiled)) :
    compiled.Clean stems := by
  refine compileChain_induct
    (motive := fun documents result => (∀ nodes ∈ documents, Everywhere Quiet nodes) →
      ∀ compiled, result = some compiled → compiled.Clean stems)
    ?_ ?_ documents h hdocuments compiled rfl
  · intro _ compiled hnone
    cases hnone
  · rintro documents parent nodes compiled _ ih hcompile hdocuments _ ⟨⟩
    rw [List.forall_mem_append, List.forall_mem_singleton] at hdocuments
    have hparent := ih hdocuments.1
    obtain ⟨root, declared, hcompiles, rfl⟩ := exists_compiles_of_compile hcompile
    obtain ⟨hroot, hdeclared⟩ := hcompiles.balances hstems hparent hdocuments.2 .empty
    exact .extend hparent hroot hdeclared

/-- A clean template is rendered to balanced markup. -/
theorem Compiled.Clean.balanced_render (h : compiled.Clean stems) {html : String}
    (hrender : compiled.render stems = .ok html) : Balanced html := by
  obtain ⟨pieces, hpieces, rfl⟩ := map_eq_ok_iff.1 hrender
  refine h.root _ (fun name inner hinner => ?_) pieces hpieces
  exact balanced_of_renderElement (fun name renderer hget => (h.renderers name renderer hget).1)
    hinner

/-- So are its elements. -/
theorem Compiled.Clean.balanced_renderElement? (h : compiled.Clean stems) {name html : String}
    (hrender : compiled.renderElement? stems name = .ok (some html)) : Balanced html := by
  obtain ⟨result, hresult, hhtml⟩ := map_eq_ok_iff.1 hrender
  obtain ⟨pieces, rfl, rfl⟩ := Option.map_eq_some_iff.1 hhtml
  rw [elementPieces] at hresult
  split at hresult
  · cases hresult
  · obtain ⟨inner, hinner, hsome⟩ := map_eq_ok_iff.1 hresult
    cases hsome
    exact balanced_of_renderElement (fun name renderer hget => (h.renderers name renderer hget).1)
      hinner

end Chains

end BemMarkup.Template

namespace BemMarkup

open Document Template

/-! ## Sessions -/

/-- The texts of a document, their escapes resolved. -/
def Document.Block.texts (block : Block) : List String :=
  block.preorder.filterMap fun entry =>
    match entry.2 with
    | .literal literal => some (Text.unescape literal.value)
    | _ => none

/-- What is added to a chain by a template that is made of a source, under the name that is
declared there, if no text of the source holds an opening bracket. -/
def Generation.Parsed (generation : Generation) : Prop :=
  ∃ source block name, parse source = .ok block ∧ block.name = some name ∧
    generation = ⟨block.content, [name]⟩ ∧ ∀ text ∈ block.texts, '<' ∉ text.toList

section Parsed

variable {generation : Generation} {chain : List Generation}

theorem Generation.Parsed.quiet (h : generation.Parsed) : Everywhere Quiet generation.nodes := by
  obtain ⟨source, block, name, hparse, -, rfl, htexts⟩ := h
  have hnamed := (parse_wellNamed hparse).1
  have htext : Everywhere (fun node => ∀ literal, node = .literal literal →
      '<' ∉ (Text.unescape literal.value).toList) block.content := by
    refine everywhere_of_preorderAll 0 fun entry hentry literal hliteral => ?_
    exact htexts _ (List.mem_filterMap.2 ⟨entry, hentry, by rw [hliteral]⟩)
  exact (hnamed.and htext).imp fun node hnode => ⟨hnode.1, hnode.2⟩

/-- The stems of parsed names start no tag. -/
theorem harmless_chainStems (h : ∀ generation ∈ chain, generation.Parsed) :
    ∀ stem ∈ chainStems chain, Harmless stem := by
  intro stem hstem
  rw [chainStems, List.mem_append, List.mem_singleton, List.mem_flatMap] at hstem
  rcases hstem with ⟨generation, hgeneration, hstem⟩ | rfl
  · obtain ⟨source, block, name, hparse, hname, rfl, -⟩ := h generation hgeneration
    rw [List.map_singleton, List.mem_singleton] at hstem
    subst hstem
    exact (Harmless.of_isName ((parse_wellNamed hparse).2 name hname)).append (by decide)
  · decide

/-- A chain of parsed templates compiles to a clean one. -/
theorem clean_of_compileAfresh (h : ∀ generation ∈ chain, generation.Parsed) {id : String}
    {compiled : Compiled}
    (hcompiled : compileAfresh Registry.initial.helpers id chain = .ok compiled) :
    compiled.Clean (chainStems chain) := by
  refine .of_compileChain (harmless_chainStems h) ?_ (compileAfresh_eq_ok_iff.1 hcompiled)
  intro nodes hnodes
  obtain ⟨generation, hgeneration, rfl⟩ := List.mem_map.1 (List.mem_reverse.1 hnodes)
  exact (h generation hgeneration).quiet

end Parsed

/-- Where no helper was registered before the helpers became final, and where all templates of
a chain are made of sources under the names declared there, whose texts hold no opening
bracket, whatever is rendered of the chain is balanced. -/
theorem markup_balanced (actions : List Action) (id : String)
    (hhelpers : Session.initial.helpersAtFreeze actions = Registry.initial.helpers)
    (hchain : ∀ generation ∈ (Session.initial.run actions).2.chain id, generation.Parsed) :
    (∀ html, ((Session.initial.run actions).2.perform (.render id)).1 = .ok (.markup html) →
      Balanced html) ∧
    ∀ name html,
      ((Session.initial.run actions).2.perform (.renderElement id name)).1 =
        .ok (.element (some html)) → Balanced html := by
  have hs : (Session.initial.run actions).2.Sound := Session.Sound.initial.run actions
  rw [Session.Sound.initial.helpersAtFreeze_eq] at hhelpers
  constructor
  · intro html h
    rw [show ((Session.initial.run actions).2.perform (.render id)).1 = _ from
      (hs.renderTemplate id).1, hhelpers, renderAfresh] at h
    split at h
    · cases h
    · rename_i compiled hcompiled
      split at h
      · cases h
      · rename_i markup hrender
        cases h
        exact (clean_of_compileAfresh hchain hcompiled).balanced_render hrender
  · intro name html h
    rw [show ((Session.initial.run actions).2.perform (.renderElement id name)).1 = _ from
      (hs.renderElementOf id name).1, hhelpers, renderElementAfresh] at h
    split at h
    · cases h
    · rename_i compiled hcompiled
      split at h
      · cases h
      · rename_i markup hrender
        cases h
        exact (clean_of_compileAfresh hchain hcompiled).balanced_renderElement? hrender

/-! ## A chain of sources -/

/-- A run that makes a template and another one that extends it. -/
def pictureOverText : List Action :=
  [.create "base" (.source "#b\ndiv/x(title='a<b')\x7b 'hi' br \x7d") ⟨none, none, none⟩,
    .create "page" (.source "#c\n/x(super!)\x7b super! img \x7d") ⟨some "base", none, none⟩]

/-- A document is what its source is parsed to. -/
theorem exists_parse_eq_ok {source : String} {name : Option String} {texts : List String}
    (h : (parse source).toOption.map (fun block => (block.name, block.texts)) =
      some (name, texts)) :
    ∃ block, parse source = .ok block ∧ block.name = name ∧ block.texts = texts := by
  obtain ⟨block, hblock, hparts⟩ := Option.map_eq_some_iff.1 h
  cases hparse : parse source with
  | error error =>
      rw [hparse] at hblock
      cases hblock
  | ok other =>
      rw [hparse] at hblock
      cases hblock
      cases hparts
      exact ⟨_, rfl, rfl, rfl⟩

/-- The markup in an outcome, if there is any. -/
def markup? : Outcome → Option String
  | .ok (.markup html) => some html
  | _ => none

theorem exists_markup_eq {outcome : Outcome} {html : String} (h : markup? outcome = some html) :
    ∃ html, outcome = .ok (.markup html) := by
  unfold markup? at h
  split at h
  · exact ⟨_, rfl⟩
  · cases h

theorem pictureOverText_is_balanced :
    ∃ html, ((Session.initial.run pictureOverText).2.perform (.render "page")).1 =
        .ok (.markup html) ∧ Balanced html := by
  obtain ⟨base, hbase, hbaseName, hbaseTexts⟩ : ∃ block,
      parse "#b\ndiv/x(title='a<b')\x7b 'hi' br \x7d" = .ok block ∧
        block.name = some "b" ∧ block.texts = ["hi"] := exists_parse_eq_ok (by decide +kernel)
  obtain ⟨page, hpage, hpageName, hpageTexts⟩ : ∃ block,
      parse "#c\n/x(super!)\x7b super! img \x7d" = .ok block ∧
        block.name = some "c" ∧ block.texts = [] := exists_parse_eq_ok (by decide +kernel)
  obtain ⟨hchain, hregistry⟩ : (Session.initial.run pictureOverText).2.chain "page" =
      [⟨page.content, ["c"]⟩, ⟨base.content, ["b"]⟩] ∧
      (Session.initial.run pictureOverText).2.registry = .initial := by
    simp [pictureOverText, Session.run, Session.perform, Session.create, Session.initial,
      Session.template?, Session.parentStems, Session.blockOf, Session.parseSource, hbase, hpage,
      mapError_ok, Session.namesOf, Options.names, hbaseName, hpageName, Session.chain,
      Session.add, Session.record, lineage, Template.generation, Template.nodes]
  have hrender : markup? ((Session.initial.run pictureOverText).2.perform (.render "page")).1 =
      some "<div class=\"c__x b__x\" title=\"a&lt;b\">hi<br><img></div>" := by decide +kernel
  obtain ⟨html, hhtml⟩ := exists_markup_eq hrender
  have hparsed : ∀ generation ∈ (Session.initial.run pictureOverText).2.chain "page",
      generation.Parsed := by
    rw [hchain, List.forall_mem_cons, List.forall_mem_singleton]
    exact ⟨⟨_, page, "c", hpage, hpageName, rfl, by rw [hpageTexts]; decide⟩,
      ⟨_, base, "b", hbase, hbaseName, rfl, by rw [hbaseTexts]; decide⟩⟩
  have hhelpers : Session.initial.helpersAtFreeze pictureOverText = Registry.initial.helpers := by
    rw [Session.Sound.initial.helpersAtFreeze_eq, hregistry]
  exact ⟨html, hhtml, (markup_balanced pictureOverText "page" hhelpers hparsed).1 html hhtml⟩

end BemMarkup

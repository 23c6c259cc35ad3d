import Mathlib.Data.List.ReduceOption
import BemMarkup.Proofs.Document.Naming
import BemMarkup.Proofs.Interpreter.Agreement

/-!
# Balanced markup

In balanced markup every opening tag has a closing tag of the same name, the two enclose
balanced markup again, and only void tags stand alone.  `Balanced` is this language.  It is
closed under concatenation, so markup can be put together from balanced parts in any order.

Fragments do not have a markup of their own, since they call elements that are looked up
when a template is rendered.  `Balances` says that they keep a promise: where calls leave
balanced markup, so does the walk over the fragments.  An element keeps it because its
opening and its closing tag are written around the fragments of its content, whatever these
call.  An opening tag never holds a bracket of its own: names have none, and attribute
values are escaped.

## Main definitions

* `Balanced`: the language of balanced markup.
* `Balances`: fragments that are balanced if what they call is.

## Main results

* `openMarkup_isTag`: an opening tag is written as a tag and nothing else.
* `Balances.ofElement`: elements are balanced if their content is.
* `balanced_of_renderElement`: rendering gives balanced markup if all renderers are balanced.
-/

namespace BemMarkup.Template

open Document

/-! ## The language -/

/-- A text in which no tag starts or ends. -/
def Harmless (text : String) : Prop := ∀ c ∈ text.toList, c ≠ '<' ∧ c ≠ '>'

instance (text : String) : Decidable (Harmless text) :=
  List.decidableBAll (fun c => c ≠ '<' ∧ c ≠ '>') text.toList

/-- What may stand behind the name in an opening tag: nothing, or something harmless that a
space sets apart from the name. -/
def FollowsTag (text : String) : Prop :=
  (text = "" ∨ ∃ more, text = " " ++ more) ∧ Harmless text

/-- The inside of an opening tag: a name and what may follow it. -/
def IsTag (tag attributes : String) : Prop :=
  NameClass.tag.IsName tag.toList ∧ FollowsTag attributes

/-- Balanced markup. -/
inductive Balanced : String → Prop
  /-- Nothing. -/
  | empty : Balanced ""
  /-- A character that starts no tag. -/
  | char {c : Char} : c ≠ '<' → Balanced (String.singleton c)
  /-- A void tag. -/
  | void {tag attributes : String} : IsTag tag attributes → Html.isVoidTag tag = true →
      Balanced ("<" ++ tag ++ attributes ++ ">")
  /-- Balanced markup between two tags of one name. -/
  | element {tag attributes inner : String} : IsTag tag attributes → Balanced inner →
      Balanced ("<" ++ tag ++ attributes ++ ">" ++ inner ++ ("</" ++ tag ++ ">"))
  /-- Two pieces of balanced markup in a row. -/
  | append {first rest : String} : Balanced first → Balanced rest → Balanced (first ++ rest)

/-- A text without an opening bracket is balanced. -/
theorem Balanced.of_text {text : String} (h : '<' ∉ text.toList) : Balanced text := by
  rw [← String.ofList_toList (s := text)]
  generalize text.toList = cs at h
  induction cs with
  | nil => exact .empty
  | cons c cs ih =>
      rw [List.mem_cons, not_or] at h
      rw [String.ofList_cons]
      exact .append (.char (Ne.symm h.1)) (ih h.2)

/-! ## Harmless texts -/

section Harmless

variable {a b : String}

theorem Harmless.append (ha : Harmless a) (hb : Harmless b) : Harmless (a ++ b) := by
  rw [Harmless, String.toList_append, List.forall_mem_append]
  exact ⟨ha, hb⟩

theorem Harmless.join {texts : List String} (h : ∀ text ∈ texts, Harmless text) :
    Harmless (String.join texts) := by
  intro c hc
  rw [String.toList_join] at hc
  obtain ⟨text, htext, hc⟩ := List.mem_flatMap.1 hc
  exact h text htext c hc

/-- Names are made of characters that no tag is made of. -/
theorem Harmless.of_isName {cls : NameClass} (h : cls.IsName a.toList) : Harmless a := by
  intro c hc
  constructor
  · rintro rfl
    exact absurd (isNameChar_of_isName h _ hc) (by decide)
  · rintro rfl
    exact absurd (isNameChar_of_isName h _ hc) (by decide)

/-- So are attribute values, once they are escaped. -/
theorem harmless_writtenValue (slot : Attribute) : Harmless (writtenValue slot) := by
  intro c hc
  rw [writtenValue, Html.escape, String.toList_ofList] at hc
  constructor
  · rintro rfl
    exact Html.not_mem_escapeChars (by simp) _ hc
  · rintro rfl
    exact Html.not_mem_escapeChars (by simp) _ hc

theorem Harmless.intercalate {texts : List String} (ha : Harmless a)
    (h : ∀ text ∈ texts, Harmless text) : Harmless (a.intercalate texts) := by
  rw [Harmless, String.toList_intercalate]
  induction texts with
  | nil => simp
  | cons text texts ih =>
      rw [List.forall_mem_cons] at h
      cases texts with
      | nil =>
          rw [List.map_singleton, List.intercalate_singleton]
          exact h.1
      | cons next texts =>
          rw [List.map_cons, List.map_cons, List.intercalate_cons_cons, List.forall_mem_append,
            List.forall_mem_append]
          exact ⟨⟨h.1, ha⟩, ih h.2⟩

theorem dropEndSpace_subset (cs : List Char) : dropEndSpace cs ⊆ cs := by
  rw [dropEndSpace]
  split
  · exact List.dropLast_subset cs
  · exact List.Subset.refl cs

theorem harmless_composeClasses {stems : List String} (hstems : ∀ stem ∈ stems, Harmless stem)
    {names : List (Option String)} (hnames : ∀ name, some name ∈ names → Harmless name) :
    Harmless (composeClasses stems names) := by
  have hspace : Harmless " " := by decide
  have hjoin : Harmless (String.join
      (names.reduceOption.map fun name => (name ++ " ").intercalate stems)) := by
    refine .join fun text htext => ?_
    obtain ⟨name, hname, rfl⟩ := List.mem_map.1 htext
    exact ((hnames name (List.reduceOption_mem_iff.1 hname)).append hspace).intercalate hstems
  intro c hc
  rw [composeClasses, String.toList_ofList] at hc
  exact hjoin c (dropEndSpace_subset _ hc)

end Harmless

/-! ## Opening tags -/

section Tags

variable {a b : String}

theorem FollowsTag.empty : FollowsTag "" := ⟨.inl rfl, by decide⟩

theorem FollowsTag.append (ha : FollowsTag a) (hb : FollowsTag b) : FollowsTag (a ++ b) := by
  refine ⟨?_, ha.2.append hb.2⟩
  rcases ha.1 with rfl | ⟨more, rfl⟩
  · rw [String.empty_append]
    exact hb.1
  · exact .inr ⟨more ++ b, String.append_assoc⟩

theorem FollowsTag.join {texts : List String} (h : ∀ text ∈ texts, FollowsTag text) :
    FollowsTag (String.join texts) := by
  induction texts with
  | nil => exact .empty
  | cons text texts ih =>
      rw [List.forall_mem_cons] at h
      rw [String.join_cons]
      exact h.1.append (ih h.2)

theorem FollowsTag.attributeMarkup {name value : String} (hname : Harmless name)
    (hvalue : Harmless value) : FollowsTag (attributeMarkup name value) := by
  rw [Template.attributeMarkup]
  refine ⟨.inr ⟨name ++ "=\"" ++ value ++ "\"", by simp only [String.append_assoc]⟩, ?_⟩
  exact ((((by decide : Harmless " ").append hname).append (by decide)).append hvalue).append
    (by decide)

variable {stems : List String}

theorem harmless_classValue (hstems : ∀ stem ∈ stems, Harmless stem)
    {slots : List (Option String)} (hslots : ∀ name, some name ∈ slots → Harmless name)
    {declared : String} (hdeclared : Harmless declared) :
    Harmless (classValue stems slots declared) := by
  refine (harmless_composeClasses hstems hslots).append ?_
  split
  · decide
  · exact (by decide : Harmless " ").append hdeclared

/-- An opening tag is written as a tag and nothing else. -/
theorem openMarkup_isTag (hstems : ∀ stem ∈ stems, Harmless stem) {tag : String}
    (htag : NameClass.tag.IsName tag.toList) {attributes : AttributeList}
    (hattributes : ∀ slot ∈ attributes.slots, Harmless slot.name)
    {names : Option (List (Option String))}
    (hnames : ∀ slots name, names = some slots → some name ∈ slots → Harmless name) :
    ∃ rest, openMarkup stems tag attributes names = "<" ++ tag ++ rest ++ ">" ∧
      IsTag tag rest := by
  unfold openMarkup
  cases hsource : classSource names with
  | none =>
      refine ⟨_, by simp only [String.append_empty, String.append_assoc]; rfl, htag, ?_⟩
      refine .join fun text htext => ?_
      obtain ⟨slot, hslot, rfl⟩ := List.mem_map.1 htext
      exact .attributeMarkup (hattributes slot hslot) (harmless_writtenValue slot)
  | some slots =>
      have hslots : ∀ name, some name ∈ slots → Harmless name := fun name =>
        hnames slots name (Option.filter_eq_some_iff.1 hsource).1
      have hclass : Harmless className := by decide
      refine ⟨_ ++ _, by simp only [String.append_assoc]; rfl, htag, .append ?_ (.join ?_)⟩
      · split
        · exact .empty
        · exact .attributeMarkup hclass (harmless_classValue hstems hslots (by decide))
      · intro text htext
        obtain ⟨slot, hslot, rfl⟩ := List.mem_map.1 htext
        split
        · exact .attributeMarkup hclass
            (harmless_classValue hstems hslots (harmless_writtenValue slot))
        · exact .attributeMarkup (hattributes slot hslot) (harmless_writtenValue slot)

end Tags

/-! ## Fragments -/

/-- Fragments that are written as balanced markup where all that they call is. -/
def Balances (stems : List String) (fragments : List Fragment) : Prop :=
  ∀ call : String → Except RenderFault (List Piece),
    (∀ name pieces, call name = .ok pieces → Balanced (writePieces stems pieces)) →
      ∀ pieces, Fragment.piecesOfAll call fragments = .ok pieces →
        Balanced (writePieces stems pieces)

section Fragments

variable {stems : List String} {xs ys : List Fragment}

theorem Balances.nil : Balances stems [] := by
  intro call _ pieces h
  rw [Fragment.piecesOfAll_nil] at h
  cases h
  exact .empty

theorem Balances.append (hx : Balances stems xs) (hy : Balances stems ys) :
    Balances stems (xs ++ ys) := by
  intro call hcall pieces h
  obtain ⟨first, rest, hfirst, hrest, rfl⟩ := Fragment.piecesOfAll_append_eq_ok.1 h
  rw [writePieces_append]
  exact .append (hx call hcall first hfirst) (hy call hcall rest hrest)

theorem Balances.text {markup : String} (h : Balanced markup) :
    Balances stems [.text markup] := by
  intro call _ pieces hpieces
  obtain ⟨written, hwritten, rfl⟩ : Writes call stems [.text markup] markup := .text markup
  cases Except.ok.inj (hpieces.symm.trans hwritten)
  exact h

theorem Balances.call (name : String) : Balances stems [.element name] := by
  intro call hcall pieces h
  rw [Fragment.piecesOfAll_element_singleton] at h
  exact hcall name pieces h

theorem Balances.splice (h : Balances stems xs) : Balances stems [.splice xs] := by
  intro call hcall pieces hpieces
  obtain ⟨first, rest, hfirst, hrest, rfl⟩ := Fragment.piecesOfAll_cons_eq_ok.1 hpieces
  rw [Fragment.pieces_splice] at hfirst
  rw [Fragment.piecesOfAll_nil] at hrest
  cases hrest
  rw [List.append_nil]
  exact h call hcall first hfirst

/-- An element is balanced if its content is, and a void tag that is not closed stands alone. -/
theorem Balances.ofElement (hstems : ∀ stem ∈ stems, Harmless stem) {tag : String}
    (htag : NameClass.tag.IsName tag.toList) {attributes : AttributeList}
    (hattributes : ∀ slot ∈ attributes.slots, Harmless slot.name) {heading : Heading}
    (hnames : ∀ slots name, heading.names = some slots → some name ∈ slots → Harmless name)
    {hasBraces : Bool} (hcontent : Balances stems xs) (hempty : hasBraces = false → xs = []) :
    Balances stems (Renderer.ofElement tag attributes heading.names hasBraces xs).fragments := by
  intro call hcall pieces h
  obtain ⟨inner, hinner, hwritten⟩ : ∃ inner, Fragment.piecesOfAll call xs = .ok inner ∧
      writePieces stems pieces =
        elementMarkup stems tag attributes heading hasBraces (writePieces stems inner) :=
    elementMarkup_of_piecesOfAll h
  obtain ⟨rest, hopen, htag⟩ := openMarkup_isTag hstems htag hattributes hnames
  rw [hwritten, elementMarkup, hopen, closingTag]
  split
  · rename_i hvoid
    rw [Bool.and_eq_true, Bool.not_eq_true'] at hvoid
    rw [hempty hvoid.1, Fragment.piecesOfAll_nil] at hinner
    cases hinner
    rw [show writePieces stems [] = "" from rfl, Option.getD_none, String.append_empty,
      String.append_empty]
    exact .void htag hvoid.2
  · exact .element htag (hcontent call hcall inner hinner)

/-! ## Rendering -/

variable {renderers : Layers Renderer}

/-- Where all renderers are balanced, so is every element that is rendered. -/
theorem balanced_of_renderElement
    (h : ∀ name renderer, renderers.get? name = some renderer →
      Balances stems renderer.fragments) {active : List String} {name : String} :
    ∀ {pieces : List Piece}, renderElement renderers active name = .ok pieces →
      Balanced (writePieces stems pieces) := by
  induction active, name using renderElement.induct renderers with
  | case1 active name hactive =>
      intro pieces hpieces
      rw [renderElement_of_mem hactive] at hpieces
      cases hpieces
  | case2 active name hactive hget =>
      intro pieces hpieces
      rw [renderElement_of_undefined hactive hget] at hpieces
      cases hpieces
  | case3 active name hactive renderer hget ih =>
      intro pieces hpieces
      rw [renderElement_of_defined hactive hget] at hpieces
      exact h name renderer hget _ (fun inner _ => ih inner) pieces hpieces

end Fragments

end BemMarkup.Template

import Mathlib.Data.List.TakeDrop
import BemMarkup.Proofs.Interpreter.Tables
import BemMarkup.Proofs.Rendering.StartTags

/-!
# Attributes along a chain

An attribute list is changed slot by slot, while what it comes to in the end can be said of the
whole sequence that is set: a name stands where it is given first, its value is the one that is
given last, and the values of the class are joined.

Each document of a chain can write an element again with a super call among its attributes, and
so set its own on top of those that the element has.  Setting two sequences one after the other is
setting both, so the list of the element in any document of the chain is what all sequences up to
there come to, one behind the other.  The slots are in the order in which the chain first gives
them, whatever is overridden later.

## Main definitions

* `AttributeList.value?`, `givenValues`: the value of a slot, and the values that are set for it.
* `DeclaresOnce`: a document has one element of a name.
* `Carries`: a chain in which each document has one, on top of the one before.

## Main results

* `AttributeList.names_extend`: the order of the slots.
* `AttributeList.value?_extend`, `AttributeList.value?_className_extend`: their values.
* `Carries.attributes`: the attributes of the element of a chain.
* `attributes_accumulate`: both, for one list and for chains.
-/

namespace BemMarkup.Template

open Document

/-! ## One list -/

/-- The values that are given for a name, in their order. -/
def givenValues (entries : List Attribute) (name : String) : List String :=
  (entries.filter fun entry => entry.name = name).map (·.value)

/-- The class that the given values come to: those that are not empty, with spaces between them;
nothing if none is given. -/
def joinedClass (values : List String) : Option String :=
  if values = [] then none else some (" ".intercalate (values.filter (· ≠ "")))

theorem givenValues_cons (entry : Attribute) (entries : List Attribute) (name : String) :
    givenValues (entry :: entries) name =
      if entry.name = name then entry.value :: givenValues entries name
      else givenValues entries name := by
  by_cases h : entry.name = name <;> simp [givenValues, h]

theorem intercalate_join (first second : String) (values : List String) :
    " ".intercalate ((first ++ " " ++ second) :: values) =
      " ".intercalate (first :: second :: values) := by
  rw [String.intercalate_cons_of_ne_nil (List.cons_ne_nil second values)]
  cases values with
  | nil => simp
  | cons value values =>
      rw [String.intercalate_cons_of_ne_nil (List.cons_ne_nil _ _),
        String.intercalate_cons_of_ne_nil (List.cons_ne_nil _ _)]
      simp only [String.append_assoc]

/-- Two values can be joined before the others are. -/
theorem joinedClass_joinClasses (first second : String) (values : List String) :
    joinedClass (joinClasses first second :: values) = joinedClass (first :: second :: values) := by
  unfold joinClasses
  by_cases hfirst : first = ""
  · simp [joinedClass, hfirst]
  by_cases hsecond : second = ""
  · simp [joinedClass, hfirst, hsecond]
  · rw [if_neg hfirst, if_neg hsecond, joinedClass, joinedClass, if_neg (List.cons_ne_nil _ _),
      if_neg (List.cons_ne_nil _ _), List.filter_cons_of_pos (by simp),
      List.filter_cons_of_pos (by simpa using hfirst),
      List.filter_cons_of_pos (by simpa using hsecond), intercalate_join]

namespace AttributeList

variable {list : AttributeList} {name : String}

/-- The value in the slot of a name, if it has one. -/
def value? (list : AttributeList) (name : String) : Option String :=
  (list.slots.find? fun slot => slot.name = name).map (·.value)

/-- The value in a slot after it is set. -/
def valueOver (name : String) : Option String → String → String
  | none, value => value
  | some old, value => if name = className then joinClasses old value else value

/-- The slots are the old ones in their order, and behind them the new ones in the order in which
they are given first. -/
theorem names_extend (list : AttributeList) (entries : List Attribute) :
    (list.extend entries).names =
      list.names ++ ((entries.map (·.name)).filter (· ∉ list.names)).eraseDups := by
  induction entries generalizing list with
  | nil => simp
  | cons entry entries ih =>
      rw [extend_cons, ih, names_set, List.map_cons]
      by_cases hmem : entry.name ∈ list.names
      · rw [if_pos hmem, List.filter_cons_of_neg (by simpa using hmem)]
      · rw [if_neg hmem, List.filter_cons_of_pos (by simpa using hmem), List.eraseDups_cons,
          List.append_assoc, List.singleton_append, List.filter_filter]
        congr 3
        refine List.filter_congr fun other _ => ?_
        rw [Bool.eq_iff_iff]
        simp [and_comm]

theorem value?_cons (slot : Attribute) (slots : List Attribute) (name : String) :
    value? ⟨slot :: slots⟩ name = if slot.name = name then some slot.value
      else value? ⟨slots⟩ name := by
  by_cases h : slot.name = name <;> simp [value?, h]

/-- Setting an attribute changes the value of its own slot and of no other. -/
theorem value?_set (list : AttributeList) (entry : Attribute) (name : String) :
    (list.set entry).value? name =
      if entry.name = name then some (valueOver name (list.value? name) entry.value)
      else list.value? name := by
  obtain ⟨slots⟩ := list
  rw [set]
  induction slots with
  | nil => exact value?_cons entry [] name
  | cons slot slots ih =>
      rw [setSlots, value?_cons]
      by_cases hslot : slot.name = entry.name
      · rw [if_pos hslot, value?_cons, merge_name, hslot]
        by_cases hname : entry.name = name
        · rw [if_pos hname, if_pos hname, if_pos hname, valueOver, merge, hslot, hname]
        · rw [if_neg hname, if_neg hname, if_neg hname]
      · rw [if_neg hslot, value?_cons, ih]
        by_cases hname : slot.name = name
        · rw [if_pos hname, if_pos hname, if_neg (fun h => hslot (hname.trans h.symm))]
        · rw [if_neg hname, if_neg hname]

/-- A slot other than that of the class has the value that is given last. -/
theorem value?_extend (list : AttributeList) (entries : List Attribute) (h : name ≠ className) :
    (list.extend entries).value? name =
      (givenValues entries name).getLast?.or (list.value? name) := by
  induction entries generalizing list with
  | nil => rfl
  | cons entry entries ih =>
      rw [extend_cons, ih, value?_set, givenValues_cons]
      by_cases hname : entry.name = name
      · have hvalue : valueOver name (list.value? name) entry.value = entry.value := by
          cases list.value? name with
          | none => rfl
          | some old => exact if_neg h
        rw [if_pos hname, if_pos hname, hvalue, List.getLast?_cons]
        cases (givenValues entries name).getLast? <;> rfl
      · rw [if_neg hname, if_neg hname]

/-- The slot of the class has all values that are given, behind the one that it had. -/
theorem value?_className_extend (list : AttributeList) (entries : List Attribute) :
    (list.extend entries).value? className =
      joinedClass ((list.value? className).toList ++ givenValues entries className) := by
  induction entries generalizing list with
  | nil =>
      cases hvalue : list.value? className with
      | none => exact hvalue
      | some old =>
          rw [extend_nil, hvalue]
          by_cases hold : old = "" <;> simp [joinedClass, givenValues, hold]
  | cons entry entries ih =>
      rw [extend_cons, ih, value?_set, givenValues_cons]
      by_cases hname : entry.name = className
      · rw [if_pos hname, if_pos hname]
        cases list.value? className with
        | none => rfl
        | some old =>
            rw [valueOver, if_pos rfl]
            exact joinedClass_joinClasses old entry.value _
      · rw [if_neg hname, if_neg hname]

end AttributeList

/-! ## Chains -/

section Chains

variable {helpers : Table Helper} {name : String}

/-- A level has one element of a name, with the given heading. -/
def HasOnce (name : String) (level : Level) (heading : Heading) : Prop :=
  (Expanded.headingsOfAll level).filter (fun other => other.name? = some name) = [heading]

/-- A document declares one element of a name, with the given heading.  Elements that helpers
give count, and helper elements do not. -/
def DeclaresOnce (helpers : Table Helper) (name : String) (nodes : List Node) (heading : Heading) :
    Prop :=
  ∃ fuel level, expandWithin helpers fuel nodes = some level ∧ HasOnce name level heading

/-- Each document of a chain, the topmost first, declares one element of a name.  Behind the
topmost one, the element has a super call for its own name among its attributes. -/
structure Carries (helpers : Table Helper) (name : String) (documents : List (List Node))
    (headings : List Heading) : Prop where
  /-- The headings of the elements. -/
  once : List.Forall₂ (DeclaresOnce helpers name) documents headings
  /-- The super calls. -/
  continued : ∀ heading ∈ headings.tail, ∃ call, heading.superCall? = some call ∧
    call.target.getD name = name

theorem lastHeading_of_hasOnce {level : Level} {heading : Heading}
    (h : HasOnce name level heading) :
    lastHeading (Expanded.headingsOfAll level) name = some heading := by
  rw [lastHeading, ← List.head?_filter, List.filter_reverse, h]
  rfl

/-- Documents have one expansion, whatever the fuel. -/
theorem expandWithin_unique {fuel fuel' : Nat} {nodes : List Node} {level level' : Level}
    (h : expandWithin helpers fuel nodes = some level)
    (h' : expandWithin helpers fuel' nodes = some level') : level = level' := by
  have hmax := expandWithin_mono (Nat.le_max_left fuel fuel') h
  rw [expandWithin_mono (Nat.le_max_right fuel fuel') h'] at hmax
  exact (Option.some.inj hmax).symm

/-- In the levels of a chain each element is found once. -/
theorem hasOnce_of_declaresOnce {fuel : Nat} {documents : List (List Node)}
    {headings : List Heading} (h : List.Forall₂ (DeclaresOnce helpers name) documents headings) :
    ∀ {levels : List Level}, documents.mapM (expandWithin helpers fuel) = some levels →
      List.Forall₂ (HasOnce name) levels headings := by
  induction h with
  | nil =>
      rintro levels ⟨⟩
      exact .nil
  | @cons nodes heading documents headings hfirst _ ih =>
      intro levels hlevels
      rw [List.mapM_cons] at hlevels
      simp only [Option.bind_eq_bind, Option.bind_eq_some_iff] at hlevels
      obtain ⟨level, hlevel, others, hothers, hlevels⟩ := hlevels
      cases hlevels
      obtain ⟨fuel', level', hlevel', honce⟩ := hfirst
      cases expandWithin_unique hlevel hlevel'
      exact .cons honce (ih hothers)

/-- Levels that have an element of a name have attributes for it. -/
theorem attributesFor?_of_hasOnce {levels : List Level} {headings : List Heading}
    (h : List.Forall₂ (HasOnce name) levels headings) (hne : levels ≠ []) :
    attributesFor? levels name = some (attributesFor levels name) := by
  cases h with
  | nil => exact absurd rfl hne
  | cons hfirst _ =>
      rw [attributesFor?, attributesFor, lastHeading_of_hasOnce hfirst]
      rfl

/-- Levels, the last one first, give an element all attributes that its headings set, those of the
topmost heading first. -/
theorem attributesFor_of_hasOnce {levels : List Level} {headings : List Heading}
    (h : List.Forall₂ (HasOnce name) levels headings)
    (hcontinued : ∀ heading ∈ headings.dropLast, ∃ call, heading.superCall? = some call ∧
      call.target.getD name = name) :
    attributesFor levels name =
      AttributeList.empty.extend (headings.reverse.flatMap Heading.ownAttributes) := by
  induction h with
  | nil => rfl
  | @cons level heading levels headings hfirst hothers ih =>
      -- the topmost heading may call what it likes, since there is nothing above it
      have hinherited : (heading.superCall?.map fun call =>
          attributesFor levels (call.target.getD name)).getD .empty =
            attributesFor levels name := by
        cases hothers with
        | nil => cases heading.superCall? <;> rfl
        | cons _ _ =>
            obtain ⟨call, hcall, htarget⟩ := hcontinued heading List.mem_cons_self
            rw [hcall, Option.map_some, Option.getD_some, htarget]
      have hbelow : ∀ other ∈ headings.dropLast, ∃ call, other.superCall? = some call ∧
          call.target.getD name = name := by
        intro other hother
        refine hcontinued other ?_
        rw [List.dropLast_cons_of_ne_nil (List.ne_nil_of_mem (List.dropLast_subset _ hother))]
        exact List.mem_cons_of_mem heading hother
      rw [attributesFor, lastHeading_of_hasOnce hfirst]
      show attributesOver (attributesFor levels) name heading = _
      rw [attributesOver, hinherited, ih hbelow, List.reverse_cons, List.flatMap_append,
        List.flatMap_singleton, AttributeList.extend_append]

variable {documents : List (List Node)} {headings : List Heading} {compiled : Compiled}

/-- The attributes of the element in the last document are what all headings set. -/
theorem Carries.attributes (h : Carries helpers name documents headings)
    (hcompile : compileChain helpers documents = .ok (some compiled)) :
    compiled.attributes.get? name =
      some (AttributeList.empty.extend (headings.flatMap Heading.ownAttributes)) := by
  obtain ⟨enough, levels, hlevels, -, hattributes⟩ := exists_levels_of_compileChain hcompile
  have honce := hasOnce_of_declaresOnce h.once (hlevels enough (Nat.le_refl enough))
  have hne : levels.reverse ≠ [] := by
    rw [Ne, List.reverse_eq_nil_iff]
    rintro rfl
    cases honce
    cases h.once
    cases hcompile
  have hcontinued : ∀ heading ∈ headings.reverse.dropLast, ∃ call,
      heading.superCall? = some call ∧ call.target.getD name = name := by
    rw [List.dropLast_reverse]
    exact fun heading hheading => h.continued heading (List.mem_reverse.1 hheading)
  have hreversed := List.forall₂_reverse_iff.2 honce
  refine (hattributes name).trans ?_
  rw [attributesFor?_of_hasOnce hreversed hne, attributesFor_of_hasOnce hreversed hcontinued,
    List.reverse_reverse]

/-- So it is in every document of the chain before. -/
theorem Carries.take (h : Carries helpers name documents headings) (k : Nat) :
    Carries helpers name (documents.take k) (headings.take k) where
  once := List.forall₂_take k h.once
  continued := by
    intro heading hheading
    rw [List.tail_take_eq_take_tail] at hheading
    exact h.continued heading (List.mem_of_mem_take hheading)

/-- The documents before one of a chain that compiles compile, too. -/
theorem exists_compileChain_take (hcompile : compileChain helpers documents = .ok (some compiled))
    {k : Nat} (hk : 0 < k) :
    ∃ earlier, compileChain helpers (documents.take k) = .ok (some earlier) := by
  have hne : documents ≠ [] := by
    rintro rfl
    cases hcompile
  rw [← List.take_append_drop k documents, compileChain, List.foldlM_append] at hcompile
  obtain ⟨parent, hparent, -⟩ := bind_eq_ok_iff.1 hcompile
  cases parent with
  | none =>
      refine absurd rfl (compileChain_ne_none hparent ?_)
      rw [Ne, List.take_eq_nil_iff, not_or]
      exact ⟨Nat.ne_of_gt hk, hne⟩
  | some earlier => exact ⟨earlier, hparent⟩

/-- **Attributes along a chain.**  A list that is extended keeps its slots in their order, and the
new ones follow in the order in which they are given first, so no name has two.  A slot has the
value that is given last, and the class has all values that are not empty, joined.

Let a chain compile in which each document declares an element of a name once, all but the first
with a super call for the name among the attributes.  In each document, the attributes of the
element are then what the attributes of all documents up to there come to, one behind the other,
and they stand in the order in which the chain first gives them. -/
theorem attributes_accumulate :
    (∀ (list : AttributeList) (entries : List Attribute), list.names.Nodup →
      (list.extend entries).names =
          list.names ++ ((entries.map (·.name)).filter (· ∉ list.names)).eraseDups ∧
        (list.extend entries).names.Nodup ∧
        (∀ name, name ≠ className → (list.extend entries).value? name =
          (givenValues entries name).getLast?.or (list.value? name)) ∧
        (list.extend entries).value? className =
          joinedClass ((list.value? className).toList ++ givenValues entries className)) ∧
    ∀ (helpers : Table Helper) (name : String) (documents : List (List Node))
      (headings : List Heading) (compiled : Compiled), Carries helpers name documents headings →
      compileChain helpers documents = .ok (some compiled) → ∀ k, 0 < k →
        ∃ earlier attributes, compileChain helpers (documents.take k) = .ok (some earlier) ∧
          earlier.attributes.get? name = some attributes ∧
          attributes =
            AttributeList.empty.extend ((headings.take k).flatMap Heading.ownAttributes) ∧
          attributes.names =
            (((headings.take k).flatMap Heading.ownAttributes).map (·.name)).eraseDups := by
  refine ⟨fun list entries hnodup => ?_, ?_⟩
  · exact ⟨list.names_extend entries, AttributeList.nodup_names_extend hnodup entries,
      fun name hname => list.value?_extend entries hname, list.value?_className_extend entries⟩
  · intro helpers name documents headings compiled hcarries hcompile k hk
    obtain ⟨earlier, hearlier⟩ := exists_compileChain_take hcompile hk
    refine ⟨earlier, _, hearlier, (hcarries.take k).attributes hearlier, rfl, ?_⟩
    rw [AttributeList.names_extend]
    simp [AttributeList.empty, AttributeList.names]

/-- A list with a class. -/
def styledList : AttributeList := ⟨[⟨"class", "x"⟩, ⟨"a", "1"⟩]⟩

/-- Attributes with repeated names, and an empty class among them. -/
def restyling : List Attribute := [⟨"class", ""⟩, ⟨"b", "2"⟩, ⟨"class", "y"⟩, ⟨"b", "3"⟩]

/-- The content of `/card(super!,c=3,a=4)`. -/
def recoloredCard : List Node :=
  [namedElement none "card" (attributesOf plainSuper [⟨"c", "3"⟩, ⟨"a", "4"⟩]) none]

theorem recoloredCard_accumulates :
    (styledList.names.Nodup ∧ (styledList.extend restyling).names = ["class", "a", "b"] ∧
      (styledList.extend restyling).value? "b" = some "3" ∧
      (styledList.extend restyling).value? className = some "x y") ∧
    ∃ earlier compiled,
      compileChain Registry.initial.helpers [card, openCard] = .ok (some earlier) ∧
        earlier.attributes.get? "card" = some ⟨[⟨"a", "1"⟩, ⟨"b", "2"⟩]⟩ ∧
        compileChain Registry.initial.helpers [card, openCard, recoloredCard] =
          .ok (some compiled) ∧
        compiled.attributes.get? "card" = some ⟨[⟨"a", "4"⟩, ⟨"b", "2"⟩, ⟨"c", "3"⟩]⟩ := by
  have hnodup : styledList.names.Nodup := by decide
  obtain ⟨compiled, hcompile⟩ : ∃ compiled, compileChain Registry.initial.helpers
      [card, openCard, recoloredCard] = .ok (some compiled) := ⟨_, rfl⟩
  have hcarries : Carries Registry.initial.helpers "card" [card, openCard, recoloredCard]
      [⟨false, "div", some [some "card"], attributesOf none [⟨"a", "1"⟩]⟩,
        ⟨false, none, some [some "card"], attributesOf plainSuper [⟨"b", "2"⟩]⟩,
        ⟨false, none, some [some "card"], attributesOf plainSuper [⟨"c", "3"⟩, ⟨"a", "4"⟩]⟩] := by
    refine ⟨.cons ⟨2, _, rfl, rfl⟩ (.cons ⟨2, _, rfl, rfl⟩ (.cons ⟨2, _, rfl, rfl⟩ .nil)), ?_⟩
    exact List.forall_mem_cons.2 ⟨⟨plainSuper, rfl, rfl⟩,
      List.forall_mem_singleton.2 ⟨plainSuper, rfl, rfl⟩⟩
  obtain ⟨hlist, hchain⟩ := attributes_accumulate
  obtain ⟨hnames, -, hvalue, hclass⟩ := hlist styledList restyling hnodup
  obtain ⟨earlier, _, hearlier, htwo, rfl, -⟩ :=
    hchain _ "card" _ _ compiled hcarries hcompile 2 (by decide)
  obtain ⟨whole, _, hwhole, hthree, rfl, -⟩ :=
    hchain _ "card" _ _ compiled hcarries hcompile 3 (by decide)
  exact ⟨⟨hnodup, hnames, hvalue "b" (by decide), hclass⟩, earlier, whole, hearlier, htwo, hwhole,
    hthree⟩

end Chains

end BemMarkup.Template

import BemMarkup.Proofs.Document.Reading

/-!
# Names in parsed documents

Nothing but names stands where a document has names: a reader takes what `NameClass.lexeme`
gives, or nothing where that is empty.  So every tag, every element name and every attribute
name of a parsed document is a name of its class, however deep the element nests, and the
block name is one too.

A document that is made without a source need not have this property.

## Main definitions

* `Heading.WellNamed`: the parts of a heading are names of their classes.
* `Everywhere`: a property of all nodes of a document, whatever they nest in.

## Main results

* `readHeading_wellNamed`: headings that are read are well named.
* `parse_wellNamed`: so are all headings of a parsed document, and its block name.
-/

namespace BemMarkup.Document

/-! ## Well-named headings -/

/-- A heading all of whose parts are names of their classes. -/
structure Heading.WellNamed (heading : Heading) : Prop where
  /-- The tag. -/
  tag : ∀ tag, heading.tag = some tag → NameClass.tag.IsName tag.toList
  /-- The names of the element. -/
  names : ∀ slots name, heading.names = some slots → some name ∈ slots →
    NameClass.element.IsName name.toList
  /-- The names of the attributes. -/
  attributes : ∀ entry ∈ heading.ownAttributes, NameClass.attribute.IsName entry.name.toList

theorem isName_of_nonempty {cls : NameClass} {cs : List Char}
    (h : ¬ (cls.lexeme cs).isEmpty = true) :
    cls.IsName (String.ofList (cls.lexeme cs)).toList := by
  rw [String.toList_ofList]
  exact NameClass.lexeme_isName (by simpa using h)

theorem readTag_isName {c : Cursor} {tag : String} (h : (readTag c).1 = some tag) :
    NameClass.tag.IsName tag.toList := by
  unfold readTag at h
  dsimp only at h
  split at h
  · cases h
  · cases h
    exact isName_of_nonempty ‹_›

theorem nameSlot_isName {cs : List Char} {name : String}
    (h : nameSlot (NameClass.element.lexeme cs) = some name) :
    NameClass.element.IsName name.toList := by
  unfold nameSlot at h
  split at h
  · cases h
  · cases h
    exact isName_of_nonempty ‹_›

theorem readSlots_isName {c : Cursor} {name : String} (h : some name ∈ (readSlots c).1) :
    NameClass.element.IsName name.toList := by
  induction c using readSlots.induct with
  | case1 c lexeme next hcomma ih =>
      rw [readSlots, if_pos hcomma, List.mem_cons] at h
      rcases h with h | h
      · exact nameSlot_isName h.symm
      · exact ih h
  | case2 c lexeme next hcomma =>
      rw [readSlots, if_neg hcomma, List.mem_singleton] at h
      exact nameSlot_isName h.symm

theorem readNames_isName {c : Cursor} {slots : List (Option String)} {name : String}
    (h : (readNames c).1 = some slots) (hname : some name ∈ slots) :
    NameClass.element.IsName name.toList := by
  unfold readNames at h
  split at h
  · cases h
    exact readSlots_isName hname
  · cases h

/-! ## Attributes -/

theorem readAttribute_isName {c d : Cursor} {entry : Attribute}
    (h : readAttribute c = .ok (entry, d)) : NameClass.attribute.IsName entry.name.toList := by
  unfold readAttribute at h
  dsimp only at h
  split at h
  · cases h
  · obtain ⟨next, -, h⟩ := bind_eq_ok_iff.1 h
    obtain ⟨⟨value, last⟩, -, h⟩ := bind_eq_ok_iff.1 h
    cases h
    exact isName_of_nonempty ‹_›

theorem readEntry_isName {c d : Cursor} {superAllowed : Bool} {entry : Entry}
    (h : readEntry superAllowed c = .ok (entry, d)) {setting : Attribute}
    (hsetting : entry.setting? = some setting) :
    NameClass.attribute.IsName setting.name.toList := by
  unfold readEntry at h
  split at h
  · obtain ⟨last, -, h⟩ := map_eq_ok_iff.1 h
    cases h
    cases hsetting
  · obtain ⟨⟨assignment, last⟩, hassignment, h⟩ := map_eq_ok_iff.1 h
    cases h
    cases hsetting
    exact readAttribute_isName hassignment

/-- What holds of each entry that is read holds of all entries of a list. -/
theorem forall_mem_readEntries {P : Entry → Prop}
    (hentry : ∀ {superAllowed c d entry}, readEntry superAllowed c = .ok (entry, d) → P entry)
    {c d : Cursor} {superAllowed : Bool} {entries : List Entry}
    (h : readEntries superAllowed c = .ok (entries, d)) : ∀ entry ∈ entries, P entry := by
  induction superAllowed, c using readEntries.induct generalizing entries d with
  | case1 superAllowed c fault hread =>
      rw [readEntries_eq, hread] at h
      cases h
  | case2 superAllowed c entry next hread hclose =>
      rw [readEntries_eq, hread] at h
      simp only [bind, Except.bind, hclose, if_true] at h
      cases h
      exact List.forall_mem_singleton.2 (hentry hread)
  | case3 superAllowed c entry next hread hclose hcomma fault hfiller =>
      rw [readEntries_eq, hread] at h
      simp [bind, Except.bind, hcomma, hfiller] at h
  | case4 superAllowed c entry next hread hclose hcomma later hfiller ih =>
      rw [readEntries_eq, hread] at h
      simp only [bind, Except.bind, if_neg hclose, if_pos hcomma, hfiller] at h
      split at h
      · cases h
      · rename_i result hresult
        cases h
        exact List.forall_mem_cons.2 ⟨hentry hread, ih hresult⟩
  | case5 superAllowed c entry next hread hclose hcomma =>
      rw [readEntries_eq, hread] at h
      simp [bind, Except.bind, hclose, hcomma] at h

theorem readAttributeGroup_isName {c d : Cursor} {group : AttributeGroup}
    (h : readAttributeGroup c = .ok (group, d)) :
    ∀ entry ∈ group.attributes, NameClass.attribute.IsName entry.name.toList := by
  obtain ⟨inner, -, h⟩ := bind_eq_ok_iff.1 h
  split at h
  · cases h
    simp
  · obtain ⟨⟨entries, last⟩, hentries, h⟩ := bind_eq_ok_iff.1 h
    cases h
    intro setting hsetting
    obtain ⟨entry, hentry, hsome⟩ := List.mem_filterMap.1 hsetting
    exact forall_mem_readEntries (P := fun entry => ∀ setting, entry.setting? = some setting →
      NameClass.attribute.IsName setting.name.toList)
      (fun hread _ => readEntry_isName hread) hentries entry hentry setting hsome

/-- Headings that are read are well named. -/
theorem readHeading_wellNamed {c d : Cursor} {heading : Heading}
    (h : readHeading c = .ok (heading, d)) : heading.WellNamed := by
  unfold readHeading at h
  dsimp only at h
  split at h
  · cases h
  · obtain ⟨⟨group, last⟩, hgroup, h⟩ := map_eq_ok_iff.1 h
    cases h
    refine ⟨fun tag htag => readTag_isName htag,
      fun slots name hslots hname => readNames_isName hslots hname, ?_⟩
    unfold readAttributes at hgroup
    split at hgroup
    · obtain ⟨⟨group, next⟩, hread, h⟩ := map_eq_ok_iff.1 hgroup
      cases h
      exact readAttributeGroup_isName hread
    · cases hgroup
      simp [Heading.ownAttributes]

/-! ## Documents -/

/-- A property of nodes that all nodes of content have, and all nodes inside them. -/
inductive Everywhere (p : Node → Prop) : List Node → Prop
  /-- No nodes. -/
  | nil : Everywhere p []
  /-- A node with what is inside it, and the nodes after it. -/
  | cons {node : Node} {nodes : List Node} : p node → Everywhere p node.children →
      Everywhere p nodes → Everywhere p (node :: nodes)

section Everywhere

variable {p q : Node → Prop} {nodes : List Node}

theorem Everywhere.and (hp : Everywhere p nodes) (hq : Everywhere q nodes) :
    Everywhere (fun node => p node ∧ q node) nodes := by
  induction hp with
  | nil => exact .nil
  | cons hnode _ _ ihChildren ih =>
      cases hq with
      | cons hnode' hchildren hrest => exact .cons ⟨hnode, hnode'⟩ (ihChildren hchildren) (ih hrest)

theorem Everywhere.imp (h : Everywhere p nodes) (hpq : ∀ node, p node → q node) :
    Everywhere q nodes := by
  induction h with
  | nil => exact .nil
  | cons hnode _ _ ihChildren ih => exact .cons (hpq _ hnode) ihChildren ih

theorem Everywhere.append {more : List Node} (h : Everywhere p nodes)
    (h' : Everywhere p more) : Everywhere p (nodes ++ more) := by
  induction h with
  | nil => exact h'
  | cons hnode hchildren _ _ ih => exact .cons hnode hchildren ih

/-- An element comes before what is inside it. -/
theorem preorderAll_element (depth : Nat) (e : Element) (nodes : List Node) :
    Node.preorderAll depth (.element e :: nodes) =
      (depth, .element e) ::
        (Node.preorderAll (depth + 1) (Node.element e).children ++ Node.preorderAll depth nodes) := by
  obtain ⟨heading, content, span⟩ := e
  cases content <;> simp [Node.preorderAll, Node.preorder, Node.children]

/-- What holds of all nodes in document order holds everywhere. -/
theorem everywhere_of_preorderAll (depth : Nat)
    (h : ∀ entry ∈ Node.preorderAll depth nodes, p entry.2) : Everywhere p nodes := by
  induction nodes using Node.inductAll generalizing depth with
  | nil => exact .nil
  | element element nodes ihChildren ih =>
      rw [preorderAll_element, List.forall_mem_cons, List.forall_mem_append] at h
      exact .cons h.1 (ihChildren _ h.2.1) (ih _ h.2.2)
  | literal literal nodes ih | comment comment nodes ih | superCall call nodes ih =>
      rw [Node.preorderAll, Node.preorder, List.forall_mem_append, List.forall_mem_singleton] at h
      · exact .cons h.1 .nil (ih _ h.2)
      · intro _ _ _ h
        cases h

end Everywhere

/-- A node whose heading, if it is an element, is well named. -/
def Node.WellNamed (node : Node) : Prop :=
  ∀ element, node = .element element → element.heading.WellNamed

/-- An item is well named if its heading is, whether its content is still to be read or not. -/
def Item.WellNamed : Item → Prop
  | .leaf node => node.WellNamed ∧ node.children = []
  | .opening heading => heading.WellNamed

theorem readElement_wellNamed {c d : Cursor} {item : Item}
    (h : readElement c = .ok (item, d)) : item.WellNamed := by
  obtain ⟨⟨heading, next⟩, hheading, h⟩ := map_eq_ok_iff.1 h
  have hnamed := readHeading_wellNamed hheading
  dsimp only at h
  split at h
  · cases h
    exact hnamed
  · cases h
    refine ⟨?_, rfl⟩
    rintro _ ⟨⟩
    exact hnamed

theorem readItem_wellNamed {inBraces : Bool} {c d : Cursor} {item : Item}
    (h : readItem inBraces c = .ok (item, d)) : item.WellNamed := by
  unfold readItem at h
  split at h
  · exact readElement_wellNamed h
  · split at h
    · obtain ⟨⟨token, next⟩, -, h⟩ := map_eq_ok_iff.1 h
      cases h
      refine ⟨?_, rfl⟩
      rintro _ ⟨⟩
    · split at h
      · obtain ⟨⟨token, next⟩, -, h⟩ := map_eq_ok_iff.1 h
        cases h
        refine ⟨?_, rfl⟩
        rintro _ ⟨⟩
      · split at h
        · cases h
          refine ⟨?_, rfl⟩
          rintro _ ⟨⟩
        · exact readElement_wellNamed h

theorem Reads.wellNamed {inBraces : Bool} {c d : Cursor} {nodes : List Node}
    (h : Reads inBraces c nodes d) : Everywhere Node.WellNamed nodes := by
  induction h with
  | nil => exact .nil
  | leaf item _ ih =>
      obtain ⟨hnode, hchildren⟩ := readItem_wellNamed item
      exact .cons hnode (hchildren ▸ .nil) ih
  | element item _ _ _ ihInside ih =>
      refine .cons ?_ ihInside ih
      rintro _ ⟨⟩
      exact readItem_wellNamed item

theorem readDeclaration_isName {c d : Cursor} {declaration : Declaration}
    (h : readDeclaration c = .ok (some declaration, d)) :
    NameClass.block.IsName declaration.name.toList := by
  unfold readDeclaration at h
  dsimp only at h
  split at h
  · split at h
    · cases h
    · cases h
      exact isName_of_nonempty ‹_›
  · cases h

/-- All headings of a parsed document are well named, and so is the block. -/
theorem parse_wellNamed {source : String} {block : Block} (h : parse source = .ok block) :
    Everywhere Node.WellNamed block.content ∧
      ∀ name, block.name = some name → NameClass.block.IsName name.toList := by
  obtain ⟨⟨comments, afterComments⟩, hcomments, hread⟩ := 
    bind_eq_ok_iff.1 (readBlock_of_parse h)
  obtain ⟨⟨declaration, afterDeclaration⟩, hdeclaration, hread⟩ := bind_eq_ok_iff.1 hread
  obtain ⟨nodes, hnodes, hread⟩ := bind_eq_ok_iff.1 hread
  cases hread
  obtain ⟨e, hcommentReads, -⟩ := reads_of_readLeadingComments hcomments
  obtain ⟨last, hreads, -⟩ := readContent_eq_ok_iff.1 hnodes
  refine ⟨hcommentReads.wellNamed.append hreads.wellNamed, ?_⟩
  intro name hname
  obtain ⟨declared, rfl, rfl⟩ := Option.map_eq_some_iff.1 hname
  exact readDeclaration_isName hdeclaration

end BemMarkup.Document

import BemMarkup.Proofs.Document.Excerpts
import BemMarkup.Proofs.Document.Naming
import BemMarkup.Proofs.Text.Folding

/-!
# Well-formed documents

A syntax tree can be put together from any texts, and most trees are the tree of no source.  What
a source is parsed as is well-formed: names are names of their classes, an element has a tag or a
name list, a literal and a comment can stand between their marks, and a super call has an element
around it.

Each part is read by a function of its own, and each of these conditions is met by one of them.
`Reads` then takes them to all depths.

A literal between backticks is stored with its layout folded, and this is well-formed because
folding a folded text changes nothing.

## Main definitions

* `Text.SingleLine`: a text that stands in one line but for what its backslashes protect.
* `Node.WellFormed`, `Block.WellFormed`: the nodes and documents that a source is parsed as.

## Main results

* `Reads.wellFormed`: content that is read is well-formed, at any depth.
* `parse_wellFormed`: so is every document that is parsed.
-/

namespace BemMarkup.Text

/-! ## Texts of one line -/

/-- A text of characters other than backslashes and line breaks, and of backslashes with the
character behind each, whatever that is. -/
inductive SingleLine : List Char → Prop
  | nil : SingleLine []
  | plain {c : Char} {cs : List Char} (backslash : c ≠ '\\') (line : c ≠ '\r' ∧ c ≠ '\n')
      (others : SingleLine cs) : SingleLine (c :: cs)
  | escape {c : Char} {cs : List Char} (others : SingleLine cs) : SingleLine ('\\' :: c :: cs)

end BemMarkup.Text

namespace BemMarkup.Document

open Text

/-! ## Super calls -/

/-- A super call that names an element names it by a name of elements. -/
def SuperCall.WellFormed (call : SuperCall) : Prop :=
  ∀ name, call.target = some name → NameClass.element.IsName name.toList

section SuperCalls

variable {c d : Cursor} {call : SuperCall} {superAllowed : Bool}

theorem readSuperCall?_wellFormed (h : readSuperCall? c = some (call, d)) : call.WellFormed := by
  obtain ⟨token, htoken, h⟩ := Option.map_eq_some_iff.1 h
  cases h
  intro name hname
  obtain ⟨target, htarget, rfl⟩ := Option.map_eq_some_iff.1 hname
  rw [String.toList_ofList]
  exact isValid_of_read? htoken target htarget

theorem readEntry_wellFormed {entry : Entry} (h : readEntry superAllowed c = .ok (entry, d))
    (hcall : entry.superCall? = some call) : call.WellFormed := by
  unfold readEntry at h
  split at h
  · rename_i hread
    obtain ⟨last, -, h⟩ := map_eq_ok_iff.1 h
    cases h
    cases hcall
    split at hread
    · exact readSuperCall?_wellFormed hread
    · cases hread
  · obtain ⟨⟨assignment, last⟩, -, h⟩ := map_eq_ok_iff.1 h
    cases h
    cases hcall

theorem readAttributeGroup_wellFormed {group : AttributeGroup}
    (h : readAttributeGroup c = .ok (group, d)) (hcall : group.superCall = some call) :
    call.WellFormed := by
  obtain ⟨inner, -, h⟩ := bind_eq_ok_iff.1 h
  split at h
  · cases h
    cases hcall
  · obtain ⟨⟨entries, last⟩, hentries, h⟩ := bind_eq_ok_iff.1 h
    cases h
    obtain ⟨entry, hentry, hsome⟩ := List.exists_of_findSome?_eq_some hcall
    exact forall_mem_readEntries (P := fun entry => ∀ call, entry.superCall? = some call →
      call.WellFormed) (fun hread _ => readEntry_wellFormed hread) hentries entry hentry call hsome

end SuperCalls

/-! ## Headings -/

/-- A heading that a source can have. -/
structure Heading.WellFormed (heading : Heading) : Prop where
  /-- A tag or a name list is written. -/
  written : heading.tag ≠ none ∨ heading.names ≠ none
  /-- All names are names of their classes. -/
  wellNamed : heading.WellNamed
  /-- A name list has a slot, be it empty. -/
  slots : ∀ slots, heading.names = some slots → slots ≠ []
  /-- The super call among the attributes. -/
  superCall : ∀ call, heading.superCall? = some call → call.WellFormed

section Headings

variable {c d : Cursor}

theorem readSlots_ne_nil (c : Cursor) : (readSlots c).1 ≠ [] := by
  rw [readSlots]
  split <;> exact List.cons_ne_nil _ _

theorem readNames_ne_nil {slots : List (Option String)} (h : (readNames c).1 = some slots) :
    slots ≠ [] := by
  unfold readNames at h
  split at h
  · cases h
    exact readSlots_ne_nil _
  · cases h

/-- Headings that are read are well-formed. -/
theorem readHeading_wellFormed {heading : Heading} (h : readHeading c = .ok (heading, d)) :
    heading.WellFormed := by
  have hnamed := readHeading_wellNamed h
  unfold readHeading at h
  dsimp only at h
  split at h
  · cases h
  · rename_i hwritten
    obtain ⟨⟨group, last⟩, hgroup, h⟩ := map_eq_ok_iff.1 h
    cases h
    rw [Bool.and_eq_true, Option.isNone_iff_eq_none, Option.isNone_iff_eq_none,
      not_and_or] at hwritten
    refine ⟨hwritten, hnamed, fun slots hslots => readNames_ne_nil hslots, fun call hcall => ?_⟩
    obtain ⟨written, rfl, hcall⟩ := Option.bind_eq_some_iff.1 hcall
    unfold readAttributes at hgroup
    split at hgroup
    · obtain ⟨⟨group, next⟩, hread, h⟩ := map_eq_ok_iff.1 hgroup
      cases h
      exact readAttributeGroup_wellFormed hread hcall
    · cases hgroup

end Headings

/-! ## Nodes -/

/-- A quoted text that a source can have: it is folded, or it stands in one line but for what is
protected. -/
structure Literal.WellFormed (l : Literal) : Prop where
  /-- Between backticks. -/
  folded : l.isMultiline = true → Text.normalize l.value = l.value
  /-- Between other quotes. -/
  line : l.isMultiline = false → SingleLine l.value.toList

/-- A comment that a source can have: it does not contain its own end. -/
structure Comment.WellFormed (comment : Comment) : Prop where
  /-- With a closing mark. -/
  block : comment.isMultiline = true → ¬ ['*', '/'] <:+: comment.value.toList
  /-- Up to the end of a line. -/
  line : comment.isMultiline = false → ∀ c ∈ comment.value.toList, c ≠ '\r' ∧ c ≠ '\n'

/-- A node that a source can have; about what is inside an element, nothing is said. -/
def Node.WellFormed : Node → Prop
  | .element e => e.heading.WellFormed
  | .literal l => l.WellFormed
  | .comment c => c.WellFormed
  | .superCall call => call.WellFormed

/-- An item is well-formed if its heading is, whether its content is still to be read or not. -/
def Item.WellFormed : Item → Prop
  | .leaf node => node.WellFormed ∧ node.children = []
  | .opening heading => heading.WellFormed

section Nodes

variable {c d : Cursor} {inBraces : Bool} {nodes : List Node}

theorem IsBody.singleLine {quote : Char} {body : List Char} (h : IsBody quote body)
    (hquote : quote ≠ '\x60') : SingleLine body := by
  induction h with
  | nil => exact .nil
  | escape _ ih => exact .escape ih
  | plain escape _ line _ ih => exact .plain escape (line.resolve_left hquote) ih

theorem wellFormed_of_readQuoted {quote : Char} {cs : List Char} {token : QuotedToken}
    (hrest : c.rest = quote :: cs) (hquote : isQuote quote = true)
    (h : readQuoted quote c = .ok (token, d)) : (token.node c d).WellFormed := by
  have hvalid := (isValid_of_readQuoted hquote hrest h).1
  refine ⟨fun hmultiline => ?_, fun hline => ?_⟩
  · have hvalue : token.value = Text.normalize (String.ofList token.body) := if_pos hmultiline
    show Text.normalize token.value = token.value
    rw [hvalue, Text.normalize, Text.normalize, String.toList_ofList, String.toList_ofList,
      normalizeChars_normalizeChars]
  · have hvalue : token.value = String.ofList token.body := if_neg (Bool.eq_false_iff.1 hline)
    show SingleLine token.value.toList
    rw [hvalue, String.toList_ofList]
    exact hvalid.body.singleLine (beq_eq_false_iff_ne.1 hline)

theorem wellFormed_of_readComment {token : CommentToken} (h : readComment c = .ok (token, d)) :
    (token.node c d).WellFormed := by
  have hvalid := (isValid_of_readComment h).1
  unfold CommentToken.IsValid at hvalid
  refine ⟨fun hblock => ?_, fun hline => ?_⟩
  · rw [if_pos hblock] at hvalid
    rwa [String.toList_ofList]
  · rw [if_neg (Bool.eq_false_iff.1 hline)] at hvalid
    rwa [String.toList_ofList]

theorem readElement_wellFormed {item : Item} (h : readElement c = .ok (item, d)) :
    item.WellFormed := by
  obtain ⟨⟨heading, next⟩, hheading, h⟩ := map_eq_ok_iff.1 h
  have hformed := readHeading_wellFormed hheading
  dsimp only at h
  split at h
  · cases h
    exact hformed
  · cases h
    exact ⟨hformed, rfl⟩

theorem readItem_wellFormed {item : Item} (h : readItem inBraces c = .ok (item, d)) :
    item.WellFormed := by
  rcases readItem_cases h with ⟨quote, cs, token, hrest, hquote, htoken, rfl⟩ |
    ⟨token, -, htoken, rfl⟩ | ⟨call, -, hcall, rfl⟩ | ⟨-, -, helement⟩
  · exact ⟨wellFormed_of_readQuoted hrest hquote htoken, rfl⟩
  · exact ⟨wellFormed_of_readComment htoken, rfl⟩
  · exact ⟨readSuperCall?_wellFormed hcall, rfl⟩
  · exact readElement_wellFormed helement

/-- Content that is read is well-formed, at any depth. -/
theorem Reads.wellFormed (h : Reads inBraces c nodes d) : Everywhere Node.WellFormed nodes := by
  induction h with
  | nil => exact .nil
  | leaf item _ ih =>
      obtain ⟨hnode, hchildren⟩ := readItem_wellFormed item
      exact .cons hnode (hchildren ▸ .nil) ih
  | element item _ _ _ ihInside ih => exact .cons (readItem_wellFormed item) ihInside ih

/-- Outside of all braces, no super call is read. -/
theorem Reads.ne_superCall (h : Reads inBraces c nodes d) (hbraces : inBraces = false) :
    ∀ node ∈ nodes, ∀ call, node ≠ .superCall call := by
  induction h with
  | nil => simp
  | leaf item _ ih =>
      refine List.forall_mem_cons.2 ⟨?_, ih hbraces⟩
      rintro call rfl
      rcases readItem_cases item with ⟨_, _, _, -, -, -, hitem⟩ | ⟨_, -, -, hitem⟩ |
        ⟨_, hinside, -, -⟩ | ⟨-, -, helement⟩
      · cases hitem
      · cases hitem
      · rw [hbraces] at hinside
        cases hinside
      · obtain ⟨⟨heading, next⟩, -, hitem⟩ := map_eq_ok_iff.1 helement
        dsimp only at hitem
        split at hitem <;> cases hitem
  | element _ _ _ _ _ ih =>
      refine List.forall_mem_cons.2 ⟨?_, ih hbraces⟩
      rintro call ⟨⟩

end Nodes

/-! ## Documents -/

/-- A document that a source can have. -/
structure Block.WellFormed (block : Block) : Prop where
  /-- The name of the block is the one that is declared, if one is. -/
  name : block.declaration = none ∧ block.name = none ∨
    ∃ declaration, block.declaration = some declaration ∧ block.name = some declaration.name ∧
      NameClass.block.IsName declaration.name.toList
  /-- Its nodes, at any depth. -/
  nodes : Everywhere Node.WellFormed block.content
  /-- Around a super call there is an element. -/
  top : ∀ node ∈ block.content, ∀ call, node ≠ .superCall call

/-- **Well-formed documents.**  What a source is parsed as is well-formed. -/
theorem parse_wellFormed {source : String} {block : Block} (h : parse source = .ok block) :
    block.WellFormed := by
  obtain ⟨comments, m, declaration, d, nodes, e, hcomments, hdeclaration, hreads, -, rfl⟩ :=
    parts_of_parse h
  obtain ⟨last, hleading, -⟩ := reads_of_readLeadingComments hcomments
  refine ⟨?_, hleading.wellFormed.append hreads.wellFormed,
    List.forall_mem_append.2 ⟨hleading.ne_superCall rfl, hreads.ne_superCall rfl⟩⟩
  cases declaration with
  | none => exact .inl ⟨rfl, rfl⟩
  | some declared => exact .inr ⟨declared, rfl, rfl, readDeclaration_isName hdeclaration⟩

/-- Stars before the end of a comment, a name in a namespace, an empty slot and a line break that
is escaped. -/
theorem unusualParts_wellFormed :
    ∃ block, parse "#b /***/ p/a,,_c(k:x='\\\n', super._c!) \x7b\x60u\n v\x60 super! //y\n\x7d" =
        .ok block ∧
      block.preorder.map (fun entry => (entry.1, entry.2.name?)) =
        [(0, none), (0, some "a"), (1, none), (1, none), (1, none)] ∧ block.WellFormed := by
  have hread : (parse
      "#b /***/ p/a,,_c(k:x='\\\n', super._c!) \x7b\x60u\n v\x60 super! //y\n\x7d").toOption.map
      (fun block => block.preorder.map fun entry => (entry.1, entry.2.name?)) =
        some [(0, none), (0, some "a"), (1, none), (1, none), (1, none)] := by decide +kernel
  cases hparse : parse
      "#b /***/ p/a,,_c(k:x='\\\n', super._c!) \x7b\x60u\n v\x60 super! //y\n\x7d" with
  | error e => simp [hparse, Except.toOption] at hread
  | ok block =>
      rw [hparse] at hread
      exact ⟨block, rfl, Option.some.inj hread, parse_wellFormed hparse⟩

end BemMarkup.Document

import BemMarkup.Document.Parse
import BemMarkup.Proofs.Document.Layout
import BemMarkup.Proofs.Text.Lines

/-!
# Documents before they are written down

A *draft* says what a document is to contain: comments, the name of its block, and items.
It says nothing of layout.  `Prints` relates drafts to the texts that write them down.  All
tokens of the text are given by the draft, and between them stand gaps of any length, in
parentheses also comments.

Two gaps must not be empty, the one between two items and the one behind a declaration.
Three texts would be read as something else, and they do not count as written down.

* An element that is only a tag takes the names of an element that starts with a slash.
* A name list that ends in an empty slot takes the name that starts the next item.
* A line comment takes all up to the end of its line.

What a draft means is a tree, and nothing of it is left to a reader.  The text between two quotes
is the value as it stands, a text between backticks has the value of its lines, and a slot of a
name list has a name or none.  Trees that are read know their places, which no draft does.  So
what is read is compared with a draft after its spans have been blanked.

## Main definitions

* `Draft`, `DocumentDraft`: items and documents.
* `Prints`, `DocumentDraft.Prints`: the texts of items and of documents.
* `QuotedToken.meaning`: the value of a quoted text.
* `Draft.nodes`, `Node.bareAll`: the tree of a draft, and a tree without its places.
-/

namespace BemMarkup.Document

open Text

/-! ## Drafts -/

/-- An entry of an attribute list. -/
inductive EntryDraft where
  | superCall (token : SuperToken)
  | setting (name : List Char) (value : Option QuotedToken)

/-- What stands before the braces of an element.  A slot of its name list may be empty. -/
structure HeadingDraft where
  isHelper : Bool
  tag : Option (List Char)
  names : Option (List (Option (List Char)))
  attributes : Option (List EntryDraft)

/-- An item of content. -/
inductive Draft where
  | literal (token : QuotedToken)
  | comment (token : CommentToken)
  | superCall (token : SuperToken)
  | element (heading : HeadingDraft) (content : Option (List Draft))

/-- A document. -/
structure DocumentDraft where
  comments : List CommentToken
  name : Option (List Char)
  items : List Draft

/-! ## Tokens -/

/-- A text that can stand between two quotes: backslashes protect the character behind them,
and no quote or, except between backticks, line break is without protection. -/
inductive IsBody (quote : Char) : List Char → Prop
  | nil : IsBody quote []
  | escape {c : Char} {cs : List Char} (rest : IsBody quote cs) : IsBody quote ('\\' :: c :: cs)
  | plain {c : Char} {cs : List Char} (escape : c ≠ '\\') (close : c ≠ quote)
      (line : quote = '\x60' ∨ c ≠ '\r' ∧ c ≠ '\n') (rest : IsBody quote cs) :
      IsBody quote (c :: cs)

/-- A quoted text that can be written down. -/
structure QuotedToken.IsValid (token : QuotedToken) : Prop where
  quote : token.quote = '\'' ∨ token.quote = '"' ∨ token.quote = '\x60'
  body : IsBody token.quote token.body

/-- A comment that can be written down: it does not contain its own end. -/
def CommentToken.IsValid (token : CommentToken) : Prop :=
  if token.isMultiline then ¬ ['*', '/'] <:+: token.body
  else ∀ c ∈ token.body, c ≠ '\r' ∧ c ≠ '\n'

/-- A super call that can be written down. -/
def SuperToken.IsValid (token : SuperToken) : Prop :=
  ∀ name, token.target = some name → NameClass.element.IsName name

/-- A text whose first character may stand between two tokens. -/
def StartsWithGap (text : List Char) : Prop := ∃ c rest, text = c :: rest ∧ isGap c = true

/-- A text whose first character ends a line. -/
def StartsWithBreak (text : List Char) : Prop :=
  ∃ c rest, text = c :: rest ∧ (c = '\r' ∨ c = '\n')

/-- What may stand between two tokens in parentheses: gaps and comments. -/
inductive IsFiller : List Char → Prop
  | gap {gap : List Char} (blank : Blank gap) : IsFiller gap
  | comment {gap rest : List Char} {token : CommentToken} (blank : Blank gap)
      (valid : token.IsValid) (line : token.isMultiline = false → StartsWithBreak rest)
      (others : IsFiller rest) : IsFiller (gap ++ (token.lexeme ++ rest))

/-! ## Attribute lists -/

/-- The texts of an entry. -/
inductive EntryDraft.Prints : EntryDraft → List Char → Prop
  | superCall {token : SuperToken} (valid : token.IsValid) : Prints (.superCall token) token.lexeme
  | name {name : List Char} (valid : NameClass.attribute.IsName name) :
      Prints (.setting name none) name
  | value {name before after : List Char} {token : QuotedToken}
      (valid : NameClass.attribute.IsName name) (filler : IsFiller before)
      (filler' : IsFiller after) (quoted : token.IsValid) :
      Prints (.setting name (some token)) (name ++ (before ++ '=' :: (after ++ token.lexeme)))

/-- The texts of entries, with commas between them. -/
inductive PrintsEntries : List EntryDraft → List Char → Prop
  | last {entry : EntryDraft} {text after : List Char} (printed : entry.Prints text)
      (filler : IsFiller after) : PrintsEntries [entry] (text ++ after)
  | cons {entry : EntryDraft} {entries : List EntryDraft} {text before after rest : List Char}
      (printed : entry.Prints text) (filler : IsFiller before) (filler' : IsFiller after)
      (others : PrintsEntries entries rest) :
      PrintsEntries (entry :: entries) (text ++ (before ++ ',' :: (after ++ rest)))

/-- The super call that an entry is, if it is one. -/
def EntryDraft.token? : EntryDraft → Option SuperToken
  | .superCall token => some token
  | .setting _ _ => none

/-- The texts of an attribute list, which has one super call at most, or no text for none. -/
inductive PrintsAttributes : Option (List EntryDraft) → List Char → Prop
  | none : PrintsAttributes none []
  | empty {inner : List Char} (filler : IsFiller inner) :
      PrintsAttributes (some []) ('(' :: (inner ++ [')']))
  | entries {entries : List EntryDraft} {before text : List Char} (filler : IsFiller before)
      (printed : PrintsEntries entries text)
      (superCalls : (entries.filterMap EntryDraft.token?).length ≤ 1) :
      PrintsAttributes (some entries) ('(' :: (before ++ (text ++ [')'])))

/-! ## Headings -/

/-- A slot that can be written down: the name in it, if there is one, is a name of an element. -/
def IsSlot (slot : Option (List Char)) : Prop :=
  ∀ name, slot = some name → NameClass.element.IsName name

theorem isSlot_none : IsSlot none := by simp [IsSlot]

/-- The texts of the slots of a name list, with commas between them. -/
inductive PrintsSlots : List (Option (List Char)) → List Char → Prop
  | last {slot : Option (List Char)} (valid : IsSlot slot) : PrintsSlots [slot] (slot.getD [])
  | cons {slot : Option (List Char)} {before after rest : List Char}
      {slots : List (Option (List Char))} (valid : IsSlot slot) (blank : Blank before)
      (blank' : Blank after) (others : PrintsSlots slots rest) :
      PrintsSlots (slot :: slots) (slot.getD [] ++ (before ++ ',' :: (after ++ rest)))

/-- The texts of a name list, or no text for none. -/
inductive PrintsNames : Option (List (Option (List Char))) → List Char → Prop
  | none : PrintsNames none []
  | some {slots : List (Option (List Char))} {gap text : List Char} (blank : Blank gap)
      (printed : PrintsSlots slots text) : PrintsNames (.some slots) ('/' :: (gap ++ text))

/-- The mark and the tag of an element, between which there is no gap. -/
def HeadingDraft.front (heading : HeadingDraft) : List Char :=
  (if heading.isHelper then ['@'] else []) ++ heading.tag.getD []

/-- The texts of a heading: its front, the name list and the attribute list, with gaps
between those that it has. -/
inductive HeadingDraft.Prints : HeadingDraft → List Char → Prop
  | intro {heading : HeadingDraft} {gap names gap' attributes : List Char}
      (valid : ∀ tag, heading.tag = some tag → NameClass.tag.IsName tag)
      (known : heading.tag ≠ none ∨ heading.names ≠ none)
      (blank : Blank gap) (joined : heading.tag = none ∨ heading.names = none → gap = [])
      (named : PrintsNames heading.names names)
      (blank' : Blank gap') (joined' : heading.attributes = none → gap' = [])
      (listed : PrintsAttributes heading.attributes attributes) :
      Prints heading (heading.front ++ (gap ++ (names ++ (gap' ++ attributes))))

/-- An element without braces that is only a tag. -/
def HeadingDraft.IsTagOnly (heading : HeadingDraft) : Prop :=
  heading.names = none ∧ heading.attributes = none

/-- An element without braces whose text ends behind an empty slot. -/
def HeadingDraft.EndsInEmptySlot (heading : HeadingDraft) : Prop :=
  heading.attributes = none ∧ ∃ slots, heading.names = some (slots ++ [none])

/-! ## Content -/

/-- An element whose text starts with its name list. -/
def Draft.StartsWithNames : Draft → Prop
  | .element heading _ => heading.isHelper = false ∧ heading.tag = none
  | _ => False

/-- An item whose text starts with a name. -/
def Draft.StartsWithName : Draft → Prop
  | .element heading _ => heading.isHelper = false ∧ heading.tag ≠ none
  | .superCall _ => True
  | _ => False

/-- Whether an item does not take the start of the next one as its own. -/
def Draft.MayPrecede : Draft → Draft → Prop
  | .element heading none, next =>
    (heading.IsTagOnly → ¬ next.StartsWithNames) ∧
      (heading.EndsInEmptySlot → ¬ next.StartsWithName)
  | _, _ => True

/-- A comment that goes up to the end of its line. -/
def Draft.IsLineComment : Draft → Prop
  | .comment token => token.isMultiline = false
  | _ => False

/-- What stands behind an item: a gap if there are more items, and a line break behind a line
comment unless the source ends. -/
structure Draft.SeparatedFrom (item : Draft) (atEnd : Bool) (items : List Draft)
    (rest : List Char) : Prop where
  gap : items ≠ [] → StartsWithGap rest
  next : ∀ next, items.head? = some next → item.MayPrecede next
  line : item.IsLineComment → StartsWithBreak rest ∨ atEnd = true ∧ rest = []

/-- Behind the last item there need not be a gap. -/
theorem separatedFrom_nil {item : Draft} {atEnd : Bool} {rest : List Char}
    (hline : item.IsLineComment → StartsWithBreak rest ∨ atEnd = true ∧ rest = []) :
    item.SeparatedFrom atEnd [] rest :=
  ⟨by simp, by simp, hline⟩

/-- A gap is enough behind what neither takes the next item as its own nor goes up to the end of
its line. -/
theorem separatedFrom_of_isGap {item : Draft} {atEnd : Bool} {items : List Draft} {d : Char}
    {rest : List Char} (hprecede : ∀ next, items.head? = some next → item.MayPrecede next)
    (hline : ¬ item.IsLineComment) (hd : isGap d = true) :
    item.SeparatedFrom atEnd items (d :: rest) :=
  ⟨fun _ => ⟨d, rest, rfl, hd⟩, hprecede, fun h => absurd h hline⟩

/-- The texts of items without braces. -/
inductive Draft.PrintsFlat : (inBraces : Bool) → Draft → List Char → Prop
  | literal {inBraces : Bool} {token : QuotedToken} (valid : token.IsValid) :
      PrintsFlat inBraces (.literal token) token.lexeme
  | comment {inBraces : Bool} {token : CommentToken} (valid : token.IsValid) :
      PrintsFlat inBraces (.comment token) token.lexeme
  | superCall {token : SuperToken} (valid : token.IsValid) :
      PrintsFlat true (.superCall token) token.lexeme
  | element {inBraces : Bool} {heading : HeadingDraft} {text : List Char}
      (printed : heading.Prints text) : PrintsFlat inBraces (.element heading none) text

/-- The texts of content, inside braces or not, at the end of a source or not. -/
inductive Prints : (inBraces atEnd : Bool) → List Draft → List Char → Prop
  | nil {inBraces atEnd : Bool} {gap : List Char} (blank : Blank gap) :
      Prints inBraces atEnd [] gap
  | flat {inBraces atEnd : Bool} {item : Draft} {items : List Draft} {gap text rest : List Char}
      (blank : Blank gap) (printed : item.PrintsFlat inBraces text)
      (separated : item.SeparatedFrom atEnd items rest)
      (others : Prints inBraces atEnd items rest) :
      Prints inBraces atEnd (item :: items) (gap ++ (text ++ rest))
  | braced {inBraces atEnd : Bool} {heading : HeadingDraft} {content items : List Draft}
      {gap text gap' inner rest : List Char}
      (blank : Blank gap) (printed : heading.Prints text) (blank' : Blank gap')
      (inside : Prints true false content inner) (separated : items ≠ [] → StartsWithGap rest)
      (others : Prints inBraces atEnd items rest) :
      Prints inBraces atEnd (.element heading (some content) :: items)
        (gap ++ (text ++ (gap' ++ '\x7b' :: (inner ++ '\x7d' :: rest))))

/-- The texts of documents. -/
inductive DocumentDraft.Prints : DocumentDraft → List Char → Prop
  | undeclared {comments : List CommentToken} {items : List Draft} {text : List Char}
      (content : Document.Prints false true (comments.map .comment ++ items) text) :
      Prints ⟨comments, none, items⟩ text
  | declared {comments : List CommentToken} {name : List Char} {items : List Draft}
      {front back : List Char} (valid : NameClass.block.IsName name)
      (leading : Document.Prints false false (comments.map .comment) front)
      (separated : back = [] ∨ StartsWithGap back)
      (content : Document.Prints false true items back) :
      Prints ⟨comments, some name, items⟩ (front ++ '#' :: (name ++ back))

/-! ## Trees of drafts -/

/-- The span of what has no place. -/
def Span.blank : Span := ⟨0, ""⟩

/-- The super call of a token. -/
def SuperToken.call (token : SuperToken) : SuperCall :=
  ⟨token.target.map String.ofList, .blank⟩

/-- The value of a quoted text: between backticks the lines of its body, trimmed and joined, and
between other quotes its body as it stands. -/
def QuotedToken.meaning (token : QuotedToken) : String :=
  String.ofList (if token.quote = '\x60' then joinedLines token.body else token.body)

/-- The attribute that an entry is, if it is one.  Without a value its value is empty. -/
def EntryDraft.attribute? : EntryDraft → Option Attribute
  | .superCall _ => none
  | .setting name none => some ⟨String.ofList name, ""⟩
  | .setting name (some token) => some ⟨String.ofList name, token.meaning⟩

/-- The attribute list of entries: the super call among them and the attributes in their order. -/
def EntryDraft.group (entries : List EntryDraft) : AttributeGroup :=
  ⟨(entries.findSome? EntryDraft.token?).map SuperToken.call,
    entries.filterMap EntryDraft.attribute?, .blank⟩

/-- The heading of a draft. -/
def HeadingDraft.heading (draft : HeadingDraft) : Heading :=
  ⟨draft.isHelper, draft.tag.map String.ofList, draft.names.map (·.map (·.map String.ofList)),
    draft.attributes.map EntryDraft.group⟩

mutual

/-- The node of a draft. -/
def Draft.node : Draft → Node
  | .literal token => .literal ⟨token.meaning, token.quote == '\x60', .blank⟩
  | .comment token => .comment ⟨String.ofList token.body, token.isMultiline, .blank⟩
  | .superCall token => .superCall token.call
  | .element heading content =>
    match content with
    | none => .element ⟨heading.heading, none, .blank⟩
    | some items => .element ⟨heading.heading, some (Draft.nodes items), .blank⟩

/-- The nodes of drafts. -/
def Draft.nodes : List Draft → List Node
  | [] => []
  | item :: items => item.node :: Draft.nodes items

end

/-! ## Trees without places -/

/-- A super call without its place. -/
def SuperCall.bare (call : SuperCall) : SuperCall := ⟨call.target, .blank⟩

/-- An entry without its place. -/
def Entry.bare : Entry → Entry
  | .superCall call => .superCall call.bare
  | .setting entry => .setting entry

/-- The attribute list with the given entries. -/
def AttributeGroup.ofEntries (entries : List Entry) (span : Span) : AttributeGroup :=
  ⟨entries.findSome? Entry.superCall?, entries.filterMap Entry.setting?, span⟩

/-- An attribute list without its places. -/
def AttributeGroup.bare (group : AttributeGroup) : AttributeGroup :=
  ⟨group.superCall.map SuperCall.bare, group.attributes, .blank⟩

/-- A heading without its places. -/
def Heading.bare (heading : Heading) : Heading :=
  ⟨heading.isHelper, heading.tag, heading.names, heading.attributes.map AttributeGroup.bare⟩

mutual

/-- A node without its places. -/
def Node.bare : Node → Node
  | .element ⟨heading, content, _⟩ =>
    match content with
    | none => .element ⟨heading.bare, none, .blank⟩
    | some nodes => .element ⟨heading.bare, some (Node.bareAll nodes), .blank⟩
  | .literal l => .literal ⟨l.value, l.isMultiline, .blank⟩
  | .comment c => .comment ⟨c.value, c.isMultiline, .blank⟩
  | .superCall call => .superCall call.bare

/-- Nodes without their places. -/
def Node.bareAll : List Node → List Node
  | [] => []
  | node :: nodes => node.bare :: Node.bareAll nodes

end

theorem nodes_append (xs ys : List Draft) :
    Draft.nodes (xs ++ ys) = Draft.nodes xs ++ Draft.nodes ys := by
  induction xs with
  | nil => rw [Draft.nodes, List.nil_append, List.nil_append]
  | cons x xs ih => simp only [List.cons_append, Draft.nodes, ih]

theorem bareAll_append (xs ys : List Node) :
    Node.bareAll (xs ++ ys) = Node.bareAll xs ++ Node.bareAll ys := by
  induction xs with
  | nil => rw [Node.bareAll, List.nil_append, List.nil_append]
  | cons x xs ih => simp only [List.cons_append, Node.bareAll, ih]

theorem eq_singleton_of_bareAll {nodes : List Node} {node : Node}
    (h : Node.bareAll nodes = [node]) : ∃ found, nodes = [found] ∧ found.bare = node := by
  cases nodes with
  | nil => cases h
  | cons found rest =>
      rw [Node.bareAll] at h
      obtain ⟨hfound, hrest⟩ := List.cons.inj h
      cases rest with
      | nil => exact ⟨found, rfl, hfound⟩
      | cons other rest => cases hrest

/-- What is an element with braces but for its places is an element with braces. -/
theorem eq_element_of_bare {node : Node} {heading : Heading} {nodes : List Node} {span : Span}
    (h : node.bare = .element ⟨heading, some nodes, span⟩) :
    ∃ found content place, node = .element ⟨found, some content, place⟩ ∧
      found.bare = heading ∧ Node.bareAll content = nodes := by
  cases node with
  | element element =>
      obtain ⟨found, content, place⟩ := element
      cases content with
      | none => cases h
      | some content =>
          cases h
          exact ⟨found, content, place, rfl, rfl, rfl⟩
  | literal _ | comment _ | superCall _ => cases h

theorem eq_superCall_of_bare {node : Node} {call : SuperCall} (h : node.bare = .superCall call) :
    ∃ found, node = .superCall found ∧ found.bare = call := by
  cases node with
  | superCall found =>
      cases h
      exact ⟨found, rfl, rfl⟩
  | element element =>
      obtain ⟨_, _ | _, _⟩ := element <;> cases h
  | literal _ | comment _ => cases h

theorem eq_literal_of_bare {node : Node} {l : Literal} (h : node.bare = .literal l) :
    ∃ found, node = .literal found ∧ found.value = l.value ∧
      found.isMultiline = l.isMultiline := by
  cases node with
  | literal found =>
      cases h
      exact ⟨found, rfl, rfl, rfl⟩
  | element element =>
      obtain ⟨_, _ | _, _⟩ := element <;> cases h
  | comment _ | superCall _ => cases h

end BemMarkup.Document

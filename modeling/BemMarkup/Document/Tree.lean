/-!
# The syntax tree of a document

A document is a `Block`: an optional declaration of its name and a list of nodes. Every
record keeps its `Span`, the place where it starts and the text that it was read from, so
a message about a node can point back into the source.

What stands before the braces of an element is its `Heading`. It is a record of its own
because a heading is complete as soon as it is read, while the element that it
introduces goes on up to its closing brace.

Three distinctions are kept that a simpler tree would lose: an element without braces has
no content, while one with empty braces has the empty list; an element without a name
list has no names, while a written list has at least one slot; and a slot of a name list
may be empty.

## Main statements

* `Node.induct`: a property of all nodes follows if it passes from the nodes inside an
  element to the element.
* `Node.inductAll`: the same for lists of nodes.
-/

namespace BemMarkup.Document

/-! ## The parts of a node -/

/-- The place where a record starts, in bytes, and the text that it was read from. -/
structure Span where
  /-- The number of bytes before the record. -/
  offset : Nat
  /-- The source text of the record. -/
  text : String
deriving DecidableEq, Repr

/-- The declaration of a block's name. -/
structure Declaration where
  /-- The declared name. -/
  name : String
  /-- Where it is written. -/
  span : Span
deriving DecidableEq, Repr

/-- A reference to what an ancestor has at this place. -/
structure SuperCall where
  /-- The element that is referred to; without one, the element around the call. -/
  target : Option String
  /-- Where it is written. -/
  span : Span
deriving DecidableEq, Repr

/-- An attribute with its value. The value is empty if none is written. -/
structure Attribute where
  /-- The name. -/
  name : String
  /-- The value, with its escapes as they are written. -/
  value : String
deriving DecidableEq, Repr

/-- The attribute list of an element. -/
structure AttributeGroup where
  /-- The super call among the entries, if there is one. -/
  superCall : Option SuperCall
  /-- The attributes, in the order in which they are written. -/
  attributes : List Attribute
  /-- Where the list is written, its parentheses included. -/
  span : Span
deriving DecidableEq, Repr

/-- What stands before the braces of an element. -/
structure Heading where
  /-- Whether the element is marked with `@`, so that a helper replaces it. -/
  isHelper : Bool
  /-- The tag; for a helper element, the name of the helper. -/
  tag : Option String
  /-- The name list, if one is written. -/
  names : Option (List (Option String))
  /-- The attribute list, if one is written. -/
  attributes : Option AttributeGroup
deriving DecidableEq, Repr

/-- The name that an element is inherited by: the first slot of its name list. -/
def Heading.name? (heading : Heading) : Option String :=
  heading.names.bind fun names => names.head?.join

/-- The super call in the attribute list of an element. -/
def Heading.superCall? (heading : Heading) : Option SuperCall :=
  heading.attributes.bind (·.superCall)

/-- The attributes that are written at an element. -/
def Heading.ownAttributes (heading : Heading) : List Attribute :=
  (heading.attributes.map (·.attributes)).getD []

/-- A quoted text. -/
structure Literal where
  /-- The text, with its escapes as they are written. -/
  value : String
  /-- Whether it is quoted with backticks, and its layout therefore folded. -/
  isMultiline : Bool
  /-- Where it is written. -/
  span : Span
deriving DecidableEq, Repr

/-- A comment. -/
structure Comment where
  /-- The text between the marks of the comment. -/
  value : String
  /-- Whether it has a closing mark, and may therefore go over several lines. -/
  isMultiline : Bool
  /-- Where it is written. -/
  span : Span
deriving DecidableEq, Repr

/-! ## Nodes -/

mutual

/-- An item of a document's content. -/
inductive Node where
  /-- An element or a helper element. -/
  | element (element : Element)
  /-- A quoted text. -/
  | literal (literal : Literal)
  /-- A comment. -/
  | comment (comment : Comment)
  /-- A super call in the content of an element. -/
  | superCall (call : SuperCall)

/-- An element with its content. -/
structure Element where
  /-- What stands before the braces. -/
  heading : Heading
  /-- The nodes between the braces, if there are braces. -/
  content : Option (List Node)
  /-- Where it is written. -/
  span : Span

end

/-- The name that an element is inherited by. -/
def Element.name? (element : Element) : Option String := element.heading.name?

/-- Where a node is written. -/
def Node.span : Node → Span
  | .element e => e.span
  | .literal l => l.span
  | .comment c => c.span
  | .superCall s => s.span

/-- The element that a node is about: its own name, or the target of a super call. -/
def Node.name? : Node → Option String
  | .element e => e.name?
  | .superCall s => s.target
  | .literal _ | .comment _ => none

/-- The nodes directly inside a node. -/
def Node.children : Node → List Node
  | .element e => e.content.getD []
  | .literal _ | .comment _ | .superCall _ => []

/-- A property of all nodes follows if it passes from the children of an element to the
element, and holds for the nodes without children. -/
theorem Node.induct {motive : Node → Prop}
    (element : ∀ e : Element, (∀ n ∈ (Node.element e).children, motive n) → motive (.element e))
    (literal : ∀ l, motive (.literal l)) (comment : ∀ c, motive (.comment c))
    (superCall : ∀ s, motive (.superCall s)) (n : Node) : motive n :=
  @Node.rec motive (fun e => ∀ n ∈ (Node.element e).children, motive n)
    (fun o => ∀ n ∈ o.getD [], motive n) (fun ns => ∀ n ∈ ns, motive n)
    element literal comment superCall (fun _ _ _ h => h) (by simp) (fun _ h => h) (by simp)
    (fun _ _ h hs => List.forall_mem_cons.2 ⟨h, hs⟩) n

/-- A property of lists of nodes follows if it passes from the rest of a list to the list,
for an element also from its children. -/
theorem Node.inductAll {motive : List Node → Prop} (nil : motive [])
    (element : ∀ e nodes, motive (Node.element e).children → motive nodes →
      motive (.element e :: nodes))
    (literal : ∀ l nodes, motive nodes → motive (.literal l :: nodes))
    (comment : ∀ c nodes, motive nodes → motive (.comment c :: nodes))
    (superCall : ∀ s nodes, motive nodes → motive (.superCall s :: nodes))
    (nodes : List Node) : motive nodes := by
  have hcons : ∀ n : Node, ∀ rest, motive rest → motive (n :: rest) := by
    intro n
    induction n using Node.induct with
    | element e ih =>
      intro rest hrest
      refine element e rest ?_ hrest
      generalize (Node.element e).children = children at ih
      induction children with
      | nil => exact nil
      | cons child children ihChildren =>
        exact ih child (by simp) children (ihChildren fun n hn => ih n (by simp [hn]))
    | literal l => exact literal l
    | comment c => exact comment c
    | superCall s => exact superCall s
  induction nodes with
  | nil => exact nil
  | cons n nodes ih => exact hcons n nodes ih

/-! ## Depth -/

mutual

/-- How deep elements nest in a node. -/
def Node.depth : Node → Nat
  | .element ⟨_, content, _⟩ =>
    match content with
    | none => 1
    | some nodes => Node.depthOfAll nodes + 1
  | .literal _ | .comment _ | .superCall _ => 0

/-- How deep elements nest in the nodes of a list. -/
def Node.depthOfAll : List Node → Nat
  | [] => 0
  | node :: nodes => max node.depth (Node.depthOfAll nodes)

end

/-! ## Documents -/

/-- A document. -/
structure Block where
  /-- The declaration of the name, if one is written. -/
  declaration : Option Declaration
  /-- The name that the document has without any other being given to it. -/
  name : Option String
  /-- The nodes of the document. -/
  content : List Node
  /-- The whole source. -/
  span : Span

/-! ## Order -/

mutual

/-- A node and all that is inside it, each with its depth, an element before what it
contains. -/
def Node.preorder (depth : Nat) : Node → List (Nat × Node)
  | .element ⟨heading, content, span⟩ =>
    (depth, .element ⟨heading, content, span⟩) ::
      match content with
      | none => []
      | some nodes => Node.preorderAll (depth + 1) nodes
  | node => [(depth, node)]

/-- The nodes of a list and all that is inside them, in document order. -/
def Node.preorderAll (depth : Nat) : List Node → List (Nat × Node)
  | [] => []
  | node :: nodes => node.preorder depth ++ Node.preorderAll depth nodes

end

/-- All nodes of a document with their depth, in document order. -/
def Block.preorder (block : Block) : List (Nat × Node) := Node.preorderAll 0 block.content

end BemMarkup.Document

import BemMarkup.Proofs.Interpreter.Expansion
import BemMarkup.Template.ClassName
import BemMarkup.Template.Fragment

/-!
# What a chain of documents means

This module says what the documents of an inheritance chain stand for, by walking over
their content.  Nothing is compiled: there are no fragments, no tables and no placeholders,
and what an element inherits is looked up in the content of the levels below it.

The content of a document, its helpers replaced, is a `Level`.  Levels are listed from the
template itself down to its topmost ancestor.  An element stands for its *declaration*:
its occurrence that is completed last in the first level that has one.  A super call
stands for the children of a declaration in the levels below its own, and these children
are again content of the level that they are written in.

Tags and attributes are decided where elements start, so for them the order of the
opening tags counts and not that of the closing ones.  The tag of an element is its own or
the one that was last written for its name before it; its attributes are its own on top of
those that the name in its super call last had in the levels below.

Elements may contain each other without end.  The walk takes fuel for that, one unit for
every declaration that it enters.

## Main definitions

* `declaration`: the occurrence that an element name stands for.
* `interpretChain`: the markup of a chain of documents.
-/

namespace BemMarkup.Template

open Document

/-- The content of a document without helpers. -/
abbrev Level := List Expanded

/-! ## Occurrences -/

/-- An element or a region that is written somewhere in a level. -/
structure Occurrence where
  /-- Its name. -/
  name : String
  /-- The heading of an element, and whether it has braces; a region has neither. -/
  tagged : Option (Heading × Bool)
  /-- The headings of the named elements that start before it. -/
  before : List Heading
  /-- What is inside it. -/
  children : List Expanded

mutual

/-- The headings of the named elements in a tree, in the order in which they start. -/
def Expanded.headings : Expanded → List Heading
  | .text _ | .superCall _ => []
  | .element heading _ children =>
    if heading.name?.isSome then heading :: Expanded.headingsOfAll children
    else Expanded.headingsOfAll children
  | .region _ children => Expanded.headingsOfAll children

/-- The headings of the named elements in content, in the order in which they start. -/
def Expanded.headingsOfAll : List Expanded → List Heading
  | [] => []
  | tree :: trees => tree.headings ++ Expanded.headingsOfAll trees

end

mutual

/-- The occurrences in a tree in the order in which they are completed, where `before` are
the headings of the named elements that start before the tree. -/
def Expanded.occurrences (before : List Heading) : Expanded → List Occurrence
  | .text _ | .superCall _ => []
  | .element heading hasBraces children =>
    match heading.name? with
    | some name =>
      Expanded.occurrencesOfAll (before ++ [heading]) children ++
        [⟨name, some (heading, hasBraces), before, children⟩]
    | none => Expanded.occurrencesOfAll before children
  | .region name children =>
    Expanded.occurrencesOfAll before children ++ [⟨name, none, before, children⟩]

/-- The occurrences in content in the order in which they are completed. -/
def Expanded.occurrencesOfAll (before : List Heading) : List Expanded → List Occurrence
  | [] => []
  | tree :: trees =>
    tree.occurrences before ++ Expanded.occurrencesOfAll (before ++ tree.headings) trees

end

/-- The last occurrence of a name in a list. -/
def lastOf (name : String) (occurrences : List Occurrence) : Option Occurrence :=
  occurrences.reverse.find? fun occurrence => occurrence.name = name

/-- The occurrence that a name stands for in the given levels, with the levels below the
one that it is written in. -/
def declaration : List Level → String → Option (Occurrence × List Level)
  | [], _ => none
  | level :: below, name =>
    match lastOf name (Expanded.occurrencesOfAll [] level) with
    | some occurrence => some (occurrence, below)
    | none => declaration below name

/-! ## Tags and attributes -/

/-- The tag that is last written for a name. -/
def writtenTag (headings : List Heading) (name : String) : Option String :=
  headings.reverse.findSome? fun heading => if heading.name? = some name then heading.tag else none

/-- The tag that is last written for a name in the given levels, the first level first. -/
def tagFor : List Level → String → Option String
  | [], _ => none
  | level :: below, name =>
    (writtenTag (Expanded.headingsOfAll level) name).or (tagFor below name)

/-- The attributes of a named element, where `inherited` gives those of other names. -/
def attributesOver (inherited : String → AttributeList) (name : String) (heading : Heading) :
    AttributeList :=
  ((heading.superCall?.map fun call => inherited (call.target.getD name)).getD .empty).extend
    heading.ownAttributes

/-- The last heading of a named element. -/
def lastHeading (headings : List Heading) (name : String) : Option Heading :=
  headings.reverse.find? fun heading => heading.name? = some name

/-- The attributes that the elements of a name last had in the given levels. -/
def attributesFor : List Level → String → AttributeList
  | [], _ => .empty
  | level :: below, name =>
    match lastHeading (Expanded.headingsOfAll level) name with
    | some heading => attributesOver (attributesFor below) name heading
    | none => attributesFor below name

/-! ## Markup of tags -/

/-- The classes of an element with names, and behind them its declared class. -/
def classValue (stems : List String) (names : List (Option String)) (declared : String) :
    String :=
  composeClasses stems names ++ if declared = "" then "" else " " ++ declared

/-- An attribute as it is written. -/
def attributeMarkup (name value : String) : String := " " ++ name ++ "=\"" ++ value ++ "\""

/-- An opening tag.  The classes of an element with names stand in the slot of its class
or, if it declares none, first. -/
def openMarkup (stems : List String) (tag : String) (attributes : AttributeList)
    (names : Option (List (Option String))) : String :=
  let leading := match classSource names with
    | some slots =>
      if attributes.has className then ""
      else attributeMarkup className (classValue stems slots "")
    | none => ""
  let written := attributes.slots.map fun slot =>
    match classSource names with
    | some slots =>
      if slot.name = className then
        attributeMarkup className (classValue stems slots (writtenValue slot))
      else attributeMarkup slot.name (writtenValue slot)
    | none => attributeMarkup slot.name (writtenValue slot)
  "<" ++ tag ++ leading ++ String.join written ++ ">"

/-- An element: its opening tag, what is inside it, and its closing tag. -/
def elementMarkup (stems : List String) (tag : String) (attributes : AttributeList)
    (heading : Heading) (hasBraces : Bool) (inner : String) : String :=
  openMarkup stems tag attributes heading.names ++ inner ++ (closingTag tag hasBraces).getD ""

/-- An occurrence around its children, with the levels below the one it is written in. -/
def Occurrence.outerMarkup (stems : List String) (below : List Level) (occurrence : Occurrence)
    (inner : String) : Option String :=
  match occurrence.tagged with
  | none => some inner
  | some (heading, hasBraces) => do
    let tag ← heading.tag.or
      ((writtenTag occurrence.before occurrence.name).or (tagFor below occurrence.name))
    return elementMarkup stems tag
      (attributesOver (attributesFor below) occurrence.name heading) heading hasBraces inner

/-! ## Interpretation -/

section Interpret

variable (stems : List String) (levels : List Level)
  (enter : List Level → String → List Expanded → Option String)

/-- The markup of the element of a name, where `enter` gives the markup of what is inside
a declaration. -/
def callMarkup (name : String) : Option String := do
  let (occurrence, below) ← declaration levels name
  let inner ← enter below name occurrence.children
  occurrence.outerMarkup stems below inner

mutual

/-- The markup of a tree that is written in a level with the levels `below`, inside the
named element `scope`. -/
def Expanded.markup (below : List Level) (scope : Option String) : Expanded → Option String
  | .text value => some value
  | .superCall target => do
    let name ← target.or scope
    let (occurrence, deeper) ← declaration below name
    enter deeper name occurrence.children
  | .element heading hasBraces children =>
    match heading.name? with
    | some name => callMarkup stems levels enter name
    | none => do
      let tag ← heading.tag
      let inner ← Expanded.markupOfAll below scope children
      return elementMarkup stems tag (AttributeList.empty.extend heading.ownAttributes) heading
        hasBraces inner
  | .region name _ => callMarkup stems levels enter name

/-- The markup of content that is written in a level with the levels `below`, inside the
named element `scope`. -/
def Expanded.markupOfAll (below : List Level) (scope : Option String) :
    List Expanded → Option String
  | [] => some ""
  | tree :: trees => do
    let first ← tree.markup below scope
    let rest ← Expanded.markupOfAll below scope trees
    return first ++ rest

end

end Interpret

/-- The markup of what is inside a declaration, with fuel for the declarations entered from
there. -/
def interpretWithin (stems : List String) (levels : List Level) :
    Nat → List Level → String → List Expanded → Option String
  | 0 => fun _ _ _ => none
  | fuel + 1 => fun below name children =>
    Expanded.markupOfAll stems levels (interpretWithin stems levels fuel) below (some name)
      children

/-- The markup of a chain of documents, the topmost first: that of the topmost document's
content, in which every element stands for its declaration in the whole chain. -/
def interpretChain (helpers : Table Helper) (stems : List String) (fuel : Nat)
    (documents : List (List Node)) : Option String := do
  let levels ← documents.mapM (expandWithin helpers fuel)
  let top ← levels.head?
  Expanded.markupOfAll stems levels.reverse (interpretWithin stems levels.reverse fuel) [] none top

end BemMarkup.Template

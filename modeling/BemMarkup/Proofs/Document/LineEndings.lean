import BemMarkup.Proofs.Document.Alignment

/-!
# Line endings

A document can be written with line feeds alone or with a carriage return before each of them.
The two are the same document: both are read or neither is, with the same nodes in the same
order, and if they are not read, the mistake is of the same kind and in the same line and column.
What differs is where nodes are written and what of the source they are written as, and the line
breaks inside a block comment, which are kept as they are.

A backslash directly before a line feed is left out.  It protects one character, which is the
carriage return where there is one, and then the line feed is not protected any more.

The loop over content is followed turn by turn, with the stacks of open elements side by side.

## Main definitions

* `Node.returned`: a node with carriage returns in its block comments.
* `SameProgress`: the same state of the loop over content.

## Main results

* `agrees_readItem`, `agrees_step`: items, and turns of the loop.
* `parse_withReturns`: documents are parsed alike with both line endings.
-/

namespace BemMarkup.Document

open Text

/-! ## Nodes with carriage returns -/

/-- A comment with carriage returns in it, if it may go over several lines. -/
def Comment.returned (c : Comment) : Comment :=
  { c with value := if c.isMultiline then withReturns c.value else c.value }

mutual

/-- A node with carriage returns in its block comments. -/
def Node.returned : Node → Node
  | .element ⟨heading, content, span⟩ =>
    match content with
    | none => .element ⟨heading, none, span⟩
    | some nodes => .element ⟨heading, some (Node.returnedAll nodes), span⟩
  | .comment c => .comment c.returned
  | .literal l => .literal l
  | .superCall call => .superCall call

/-- Nodes with carriage returns in their block comments. -/
def Node.returnedAll : List Node → List Node
  | [] => []
  | node :: nodes => node.returned :: Node.returnedAll nodes

end

/-- A node and the node that is read in its place with carriage returns. -/
def SameNode (node node' : Node) : Prop := node'.bare = node.returned.bare

/-- Nodes and the nodes that are read in their place with carriage returns. -/
def SameNodes (nodes nodes' : List Node) : Prop :=
  Node.bareAll nodes' = Node.bareAll (Node.returnedAll nodes)

section Nodes

variable {node node' : Node} {nodes nodes' others others' : List Node}

theorem bareAll_eq_map (nodes : List Node) : Node.bareAll nodes = nodes.map Node.bare := by
  induction nodes with
  | nil => rfl
  | cons node nodes ih => rw [Node.bareAll, ih, List.map_cons]

theorem returnedAll_eq_map (nodes : List Node) :
    Node.returnedAll nodes = nodes.map Node.returned := by
  induction nodes with
  | nil => rfl
  | cons node nodes ih => rw [Node.returnedAll, ih, List.map_cons]

theorem sameNodes_iff :
    SameNodes nodes nodes' ↔
      nodes'.map Node.bare = nodes.map fun node => node.returned.bare := by
  rw [SameNodes, bareAll_eq_map, bareAll_eq_map, returnedAll_eq_map, List.map_map]
  rfl

theorem SameNodes.nil : SameNodes [] [] := rfl

theorem SameNodes.cons (h : SameNode node node') (hs : SameNodes nodes nodes') :
    SameNodes (node :: nodes) (node' :: nodes') := by
  rw [sameNodes_iff] at hs ⊢
  rw [List.map_cons, List.map_cons, hs, h]

theorem SameNodes.reverse (h : SameNodes nodes nodes') :
    SameNodes nodes.reverse nodes'.reverse := by
  rw [sameNodes_iff] at h ⊢
  rw [List.map_reverse, List.map_reverse, h]

theorem SameNodes.append (h : SameNodes nodes nodes') (h' : SameNodes others others') :
    SameNodes (nodes ++ others) (nodes' ++ others') := by
  rw [sameNodes_iff] at h h' ⊢
  rw [List.map_append, List.map_append, h, h']

end Nodes

/-! ## Items -/

/-- An item and the item that is read in its place with carriage returns. -/
inductive SameItem : Item → Item → Prop
  | leaf {node node' : Node} (same : SameNode node node') : SameItem (.leaf node) (.leaf node')
  | opening {heading heading' : Heading} (same : heading'.bare = heading.bare) :
      SameItem (.opening heading) (.opening heading')

section Items

variable {source : List Char} {c c' d d' : Cursor}

theorem sameNode_comment {token token' : CommentToken} (h : token' = token.returned) :
    SameNode (token.node c d) (token'.node c' d') := by
  subst h
  unfold CommentToken.returned
  split
  · rename_i hmark
    simp [SameNode, CommentToken.node, Node.returned, Node.bare, Comment.returned, withReturns,
      hmark]
  · rename_i hmark
    simp [SameNode, CommentToken.node, Node.returned, Node.bare, Comment.returned, hmark]

theorem sameNode_literal {token token' : QuotedToken}
    (hmark : token'.isMultiline = token.isMultiline) (hvalue : token'.value = token.value) :
    SameNode (token.node c d) (token'.node c' d') := by
  simp [SameNode, QuotedToken.node, Node.returned, Node.bare, hmark, hvalue]

theorem sameNode_element {heading heading' : Heading} (h : heading'.bare = heading.bare) :
    SameNode (heading.node none c d) (heading'.node none c' d') := by
  simp [SameNode, Heading.node, Node.returned, Node.bare, h]

theorem sameNode_braced {heading heading' : Heading} {nodes nodes' : List Node}
    (h : heading'.bare = heading.bare) (hnodes : SameNodes nodes nodes') :
    SameNode (heading.node (some nodes) c d) (heading'.node (some nodes') c' d') := by
  have hinside : Node.bareAll nodes' = Node.bareAll (Node.returnedAll nodes) := hnodes
  simp [SameNode, Heading.node, Node.returned, Node.bare, h, hinside]

theorem agrees_readElement (h : SamePlace source c c') (hsource : ¬ ['\\', '\n'] <:+: source) :
    Agrees source (At source SameItem) (readElement c) (readElement c') := by
  unfold readElement
  refine (agrees_readHeading h hsource).map fun read read' hread => ?_
  dsimp only
  by_cases hbrace : read.2.current? = some '\x7b'
  · rw [if_pos hbrace, if_pos ((hread.2.current? rfl).2 hbrace)]
    exact ⟨.opening hread.1, hread.2.past_current rfl hbrace⟩
  · rw [if_neg hbrace, if_neg (mt (hread.2.current? rfl).1 hbrace)]
    exact ⟨.leaf (sameNode_element hread.1), hread.2⟩

/-- Items are read alike. -/
theorem agrees_readItem (inBraces : Bool) (h : SamePlace source c c')
    (hsource : ¬ ['\\', '\n'] <:+: source) (hgap : Gapless c.rest) :
    Agrees source (At source SameItem) (readItem inBraces c) (readItem inBraces c') := by
  cases hrest : c.rest with
  | nil =>
      have hrest' : c'.rest = [] := by rw [h.rest_eq, hrest, addReturns_nil]
      unfold readItem
      rw [hrest, hrest']
      exact agrees_readElement h hsource
  | cons first rest =>
      have hne : first ≠ '\n' := by
        rintro rfl
        cases hgap '\n' (by rw [hrest]; rfl)
      have hrest' : c'.rest = first :: addReturns rest := by
        rw [h.rest_eq, hrest, addReturns_cons hne]
      rw [readItem_of_rest inBraces hrest, readItem_of_rest inBraces hrest']
      by_cases hquote : isQuote first = true
      · rw [if_pos hquote, if_pos hquote]
        refine (agrees_readQuoted h hsource hquote hrest).map fun read read' hread => ?_
        exact ⟨.leaf (sameNode_literal hread.1.1 hread.1.2), hread.2⟩
      rw [if_neg hquote, if_neg hquote, h.rest_eq, startsComment_addReturns]
      by_cases hcomment : startsComment c.rest = true
      · rw [if_pos hcomment, if_pos hcomment]
        obtain ⟨tail, hslash⟩ := head_of_startsComment hcomment
        refine (agrees_readComment h (Cursor.current?_of_rest_eq hslash)).map
          fun read read' hread => ?_
        exact ⟨.leaf (sameNode_comment hread.1), hread.2⟩
      rw [if_neg hcomment, if_neg hcomment]
      have hcall := rel_superCall inBraces h
      generalize (if inBraces then readSuperCall? c else none) = call at hcall ⊢
      generalize (if inBraces then readSuperCall? c' else none) = call' at hcall ⊢
      cases hcall with
      | none => exact agrees_readElement h hsource
      | some hsame => exact .ok ⟨.leaf (congrArg Node.superCall hsame.1), hsame.2⟩

end Items

/-! ## Turns of the loop -/

/-- An open element and the element that is open in its place with carriage returns. -/
structure SameOpen (element element' : OpenElement) : Prop where
  heading : element'.heading.bare = element.heading.bare
  before : SameNodes element.before element'.before

/-- The same state of the loop over content, without and with carriage returns. -/
structure SameProgress (source : List Char) (p p' : Progress) : Prop where
  outer : List.Forall₂ SameOpen p.outer p'.outer
  done : SameNodes p.done p'.done
  cursor : SamePlace source p.cursor p'.cursor

section Turns

variable {source : List Char} {p p' : Progress} {c c' : Cursor}

theorem SameProgress.outer_eq_nil (h : SameProgress source p p') :
    p'.outer = [] ↔ p.outer = [] := by
  have houter := h.outer
  generalize p.outer = outer at houter ⊢
  generalize p'.outer = outer' at houter ⊢
  cases houter with
  | nil => simp
  | cons => simp

theorem SameProgress.inBraces (h : SameProgress source p p') : p'.inBraces = p.inBraces := by
  rw [Progress.inBraces, Progress.inBraces, Bool.eq_iff_iff]
  simp [h.outer_eq_nil]

/-- An item is taken in alike. -/
theorem SameProgress.push (h : SameProgress source p p') {read read' : Item × Cursor}
    (hread : At source SameItem read read') :
    SameProgress source (p.push c read) (p'.push c' read') := by
  obtain ⟨item, next⟩ := read
  obtain ⟨item', next'⟩ := read'
  obtain ⟨hitem, hnext⟩ := hread
  cases hitem with
  | leaf same => exact ⟨h.outer, .cons same h.done, hnext⟩
  | opening same => exact ⟨.cons ⟨same, h.done⟩ h.outer, .nil, hnext⟩

/-- At an item, the loop reads it. -/
theorem step_of_item {first : Char} (hfirst : p.cursor.skipGaps.current? = some first)
    (hitem : p.outer = [] ∨ first ≠ '\x7d') :
    p.step = (readItem p.inBraces p.cursor.skipGaps).map fun item =>
      some (p.push p.cursor.skipGaps item) := by
  obtain ⟨outer, done, c⟩ := p
  unfold Progress.step
  cases outer with
  | nil => simp_all
  | cons element outer => simp_all

/-- At the end of the source, the loop ends, or elements are left open. -/
theorem agrees_step_of_end (h : SameProgress source p p')
    (hend : p.cursor.skipGaps.current? = none) :
    Agrees source (Option.Rel (SameProgress source)) p.step p'.step := by
  have hhere := h.cursor.skipGaps
  have hend' : p'.cursor.skipGaps.current? = none := by
    rw [Cursor.current?, List.head?_eq_none_iff] at hend ⊢
    rw [hhere.rest_eq, hend, addReturns_nil]
  have houter := h.outer
  obtain ⟨outer, done, c⟩ := p
  obtain ⟨outer', done', c'⟩ := p'
  dsimp only at hend hend' houter hhere
  unfold Progress.step
  cases houter with
  | nil =>
      simp only [hend, hend']
      exact .ok .none
  | cons =>
      simp only [hend, hend']
      exact .error (hhere.fault rfl)

/-- A closing brace closes the innermost element alike. -/
theorem agrees_step_of_brace (h : SameProgress source p p') (hopen : p.outer ≠ [])
    (hbrace : p.cursor.skipGaps.current? = some '\x7d') :
    Agrees source (Option.Rel (SameProgress source)) p.step p'.step := by
  have hhere := h.cursor.skipGaps
  have hbrace' := (hhere.current? rfl).2 hbrace
  have houter := h.outer
  have hdone := h.done
  obtain ⟨outer, done, c⟩ := p
  obtain ⟨outer', done', c'⟩ := p'
  dsimp only at hbrace hbrace' houter hhere hdone
  cases houter with
  | nil => exact absurd rfl hopen
  | cons element others =>
      rw [step_of_closingBrace _ _ _ hbrace, step_of_closingBrace _ _ _ hbrace']
      refine .ok (.some ⟨others, ?_, hhere.past_current rfl hbrace⟩)
      exact .cons (sameNode_braced element.heading hdone.reverse) element.before

/-- Turns of the loop agree. -/
theorem agrees_step (h : SameProgress source p p') (hsource : ¬ ['\\', '\n'] <:+: source) :
    Agrees source (Option.Rel (SameProgress source)) p.step p'.step := by
  have hhere := h.cursor.skipGaps
  cases hcurrent : p.cursor.skipGaps.current? with
  | none => exact agrees_step_of_end h hcurrent
  | some first =>
      by_cases hitem : p.outer = [] ∨ first ≠ '\x7d'
      · have hgap : Gapless p.cursor.skipGaps.rest := by
          rw [Cursor.skipGaps_rest]
          exact gapless_dropWhile _
        have hbreak : isBreak first = false := by
          cases hfirst : isBreak first with
          | false => rfl
          | true =>
              have hfalse : isGap first = false := hgap first hcurrent
              rw [isGap_of_isBreak hfirst] at hfalse
              cases hfalse
        have hitem' : p'.outer = [] ∨ first ≠ '\x7d' := hitem.imp_left h.outer_eq_nil.2
        rw [step_of_item hcurrent hitem, step_of_item ((hhere.current? hbreak).2 hcurrent) hitem',
          h.inBraces]
        exact (agrees_readItem p.inBraces hhere hsource hgap).map
          fun read read' hread => .some (h.push hread)
      · rw [not_or, not_not] at hitem
        rw [hitem.2] at hcurrent
        exact agrees_step_of_brace h hitem.1 hcurrent

/-- Content is read alike. -/
theorem agrees_readContent (h : SameProgress source p p') (hsource : ¬ ['\\', '\n'] <:+: source) :
    Agrees source SameNodes (readContent p) (readContent p') := by
  induction p using readContent.induct generalizing p' with
  | case1 p fault hstep =>
      have hturn := agrees_step h hsource
      rw [hstep] at hturn
      generalize hstep' : p'.step = turn at hturn
      cases hturn with
      | error same =>
          rw [readContent_of_fault hstep, readContent_of_fault hstep']
          exact .error same
  | case2 p hstep =>
      have hturn := agrees_step h hsource
      rw [hstep] at hturn
      generalize hstep' : p'.step = turn at hturn
      cases hturn with
      | ok value =>
          cases value
          rw [readContent_of_complete hstep, readContent_of_complete hstep']
          exact .ok h.done.reverse
  | case3 p q hstep ih =>
      have hturn := agrees_step h hsource
      rw [hstep] at hturn
      generalize hstep' : p'.step = turn at hturn
      cases hturn with
      | ok value =>
          cases value with
          | some same =>
              rw [readContent_of_step hstep, readContent_of_step hstep']
              exact ih same

end Turns

/-! ## Documents -/

section Documents

variable {source : List Char} {c c' : Cursor}

theorem readLeadingComments_of_start (hstart : startsComment c.skipGaps.rest = true) :
    readLeadingComments c = (readComment c.skipGaps).bind fun (token, next) =>
      (readLeadingComments next).map fun (nodes, last) =>
        (token.node c.skipGaps next :: nodes, last) := by
  rw [readLeadingComments, if_pos hstart]
  split <;> simp_all [Except.bind]

theorem SamePlace.startsComment (h : SamePlace source c c') :
    startsComment c'.skipGaps.rest = startsComment c.skipGaps.rest := by
  rw [h.skipGaps.rest_eq, startsComment_addReturns]

theorem agrees_firstComment (h : SamePlace source c c')
    (hstart : startsComment c.skipGaps.rest = true) :
    Agrees source (At source fun token token' => token' = token.returned)
      (readComment c.skipGaps) (readComment c'.skipGaps) := by
  obtain ⟨tail, hslash⟩ := head_of_startsComment hstart
  exact agrees_readComment h.skipGaps (Cursor.current?_of_rest_eq hslash)

/-- The comments before everything else are read alike. -/
theorem agrees_readLeadingComments (h : SamePlace source c c') :
    Agrees source (At source SameNodes) (readLeadingComments c) (readLeadingComments c') := by
  induction c using readLeadingComments.induct generalizing c' with
  | case1 c hstart fault hread =>
      rw [readLeadingComments_of_start hstart,
        readLeadingComments_of_start (h.startsComment.trans hstart)]
      refine (agrees_firstComment h hstart).bind fun read _ hread' _ => ?_
      rw [hread] at hread'
      cases hread'
  | case2 c hstart token next hread ih =>
      rw [readLeadingComments_of_start hstart,
        readLeadingComments_of_start (h.startsComment.trans hstart)]
      refine (agrees_firstComment h hstart).bind fun read read' hread' hsame => ?_
      rw [hread] at hread'
      cases hread'
      refine (ih hsame.2).map fun others others' hothers => ?_
      exact ⟨.cons (sameNode_comment hsame.1) hothers.1, hothers.2⟩
  | case3 c hstart =>
      rw [readLeadingComments, if_neg hstart, readLeadingComments.eq_def c',
        if_neg (by rw [h.startsComment]; exact hstart)]
      exact .ok ⟨.nil, h.skipGaps⟩

theorem agrees_readDeclaration (h : SamePlace source c c') :
    Agrees source
      (At source fun declaration declaration' =>
        declaration'.map Declaration.name = declaration.map Declaration.name)
      (readDeclaration c) (readDeclaration c') := by
  unfold readDeclaration
  by_cases hhash : c.current? = some '#'
  · have hmark := h.past_current rfl hhash
    rw [if_pos hhash, if_pos ((h.current? rfl).2 hhash), hmark.rest_eq, lexeme_addReturns]
    dsimp only
    split
    · exact .error (h.fault rfl)
    · exact .ok ⟨rfl, hmark.past_lexeme .block⟩
  · rw [if_neg hhash, if_neg (mt (h.current? rfl).1 hhash)]
    exact .ok ⟨rfl, h⟩

/-- A document and the document that is read in its place with carriage returns. -/
structure SameBlock (block block' : Block) : Prop where
  declaration : block'.declaration.map Declaration.name = block.declaration.map Declaration.name
  name : block'.name = block.name
  content : Node.bareAll block'.content = Node.bareAll (Node.returnedAll block.content)

/-- Sources are read alike. -/
theorem agrees_readBlock {source : String} (hsource : ¬ ['\\', '\n'] <:+: source.toList) :
    Agrees source.toList SameBlock (readBlock source) (readBlock (withReturns source)) := by
  have hstart : SamePlace source.toList (.start source.toList)
      (.start (withReturns source).toList) := by
    rw [withReturns, String.toList_ofList]
    exact .start source.toList
  refine (agrees_readLeadingComments hstart).bind fun comments comments' _ hcomments => ?_
  refine (agrees_readDeclaration hcomments.2).bind fun declared declared' _ hdeclared => ?_
  have hprogress : SameProgress source.toList (.start declared.2) (.start declared'.2) :=
    ⟨.nil, .nil, hdeclared.2⟩
  refine (agrees_readContent hprogress hsource).bind fun nodes nodes' _ hnodes => ?_
  exact .ok ⟨hdeclared.1, hdeclared.1, hcomments.1.append hnodes⟩

/-- Line and column of a mistake are the same. -/
theorem SameFault.position_eq {source : String} {fault fault' : Fault}
    (h : SameFault source.toList fault fault') :
    (fault'.locate (withReturns source)).position = (fault.locate source).position := by
  obtain ⟨front, ⟨rest, hsource⟩, hoffset, hoffset'⟩ := h.place
  have hreturns : (withReturns source).toList = addReturns front ++ addReturns rest := by
    rw [withReturns, String.toList_ofList, ← hsource, addReturns_append]
  rw [Fault.locate, Fault.locate, Position.ofOffset, Position.ofOffset, hoffset, hoffset', hreturns,
    ← hsource, takeBytes_append, takeBytes_append, Position.after_addReturns]

/-- **Line endings.**  A source without a backslash before a line feed is parsed with carriage
returns before its line feeds if and only if it is parsed without them.  The nodes are the same but
for their places and for the returns in block comments.  A mistake is of the same kind, and in the
same line and column. -/
theorem parse_withReturns {source : String} (hsource : ¬ ['\\', '\n'] <:+: source.toList) :
    ((∃ block, parse source = .ok block) ↔ ∃ block', parse (withReturns source) = .ok block') ∧
      (∀ block block', parse source = .ok block → parse (withReturns source) = .ok block' →
        SameBlock block block') ∧
      ∀ error error', parse source = .error error → parse (withReturns source) = .error error' →
        error'.position = error.position ∧ error'.kind.withoutFound = error.kind.withoutFound := by
  have hread := agrees_readBlock hsource
  unfold parse
  generalize readBlock source = read at hread ⊢
  generalize readBlock (withReturns source) = read' at hread ⊢
  cases hread with
  | ok same =>
      refine ⟨⟨fun _ => ⟨_, rfl⟩, fun _ => ⟨_, rfl⟩⟩, ?_, ?_⟩
      · rintro _ _ ⟨⟩ ⟨⟩
        exact same
      · rintro _ _ ⟨⟩
  | error same =>
      refine ⟨⟨?_, ?_⟩, ?_, ?_⟩
      · rintro ⟨_, ⟨⟩⟩
      · rintro ⟨_, ⟨⟩⟩
      · rintro _ _ ⟨⟩
      · rintro _ _ ⟨⟩ ⟨⟩
        exact ⟨same.position_eq, same.kind⟩

/-- Line breaks in an unquoted value, in a text and in a comment. -/
theorem brokenLines_with_returns :
    ¬ ['\\', '\n'] <:+: "#b\np(a=x\n)\x7b \x60u\n  v\x60 /*c\n*/ \x7d".toList ∧
      ∃ block block', parse "#b\np(a=x\n)\x7b \x60u\n  v\x60 /*c\n*/ \x7d" = .ok block ∧
        parse (withReturns "#b\np(a=x\n)\x7b \x60u\n  v\x60 /*c\n*/ \x7d") = .ok block' ∧
        block.name = some "b" ∧ SameBlock block block' := by
  have hsource : ¬ ['\\', '\n'] <:+:
      "#b\np(a=x\n)\x7b \x60u\n  v\x60 /*c\n*/ \x7d".toList := by
    decide +kernel
  have hread : (parse "#b\np(a=x\n)\x7b \x60u\n  v\x60 /*c\n*/ \x7d").toOption.map
      (fun block => block.name) = some (some "b") := by
    decide +kernel
  obtain ⟨hparses, hsame, -⟩ := parse_withReturns hsource
  cases hparse : parse "#b\np(a=x\n)\x7b \x60u\n  v\x60 /*c\n*/ \x7d" with
  | error e => simp [hparse, Except.toOption] at hread
  | ok block =>
      obtain ⟨block', hparse'⟩ := hparses.1 ⟨block, hparse⟩
      rw [hparse] at hread
      exact ⟨hsource, block, block', rfl, hparse', Option.some.inj hread,
        hsame block block' hparse hparse'⟩

-- a backslash protects the carriage return in place of the line feed
example : (parse "'\\\n'").toOption.isSome = true ∧
    (parse (withReturns "'\\\n'")).toOption.isSome = false := by
  decide +kernel

end Documents

end BemMarkup.Document

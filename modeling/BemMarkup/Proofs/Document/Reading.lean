import BemMarkup.Document.Parse
import BemMarkup.Proofs.Document.Characters

/-!
# Reading content without a stack

`readContent` is a loop that keeps the open elements on a stack.  What it reads can be said
without the stack: content is a sequence of complete items and of elements whose content is
between the item that opens them and their closing brace.  `Reads` says this.  It nests
where the document nests, so a property of all documents is an induction with one case for
each of the two.

The stack is gone because it only holds what is still to be closed.  `Completes` says of a
stack that reading goes on to close all of it, and every turn of the loop keeps this.

## Main results

* `readItem_quoted`, `readItem_comment`, `readItem_superCall`, `readItem_element`: what is
  read depends on how the text starts.
* `head_of_readItem`: what items do not start with; a closing brace is among it.
* `readContent_eq_ok_iff`: the loop gives the nodes that `Reads` describes.
* `reads_of_readLeadingComments`: and so does the loop over the comments before it.
* `parts_of_parse`: the parts that a document is read as.
-/

namespace BemMarkup.Document

open Text

/-! ## Kinds of items -/

section Kinds

variable {c : Cursor} {first : Char} {rest : List Char}

theorem readItem_of_rest (inBraces : Bool) (h : c.rest = first :: rest) :
    readItem inBraces c =
      if isQuote first then
        (readQuoted first c).map fun (token, next) => (.leaf (token.node c next), next)
      else if startsComment c.rest then
        (readComment c).map fun (token, next) => (.leaf (token.node c next), next)
      else
        match if inBraces then readSuperCall? c else none with
        | some (call, next) => .ok (.leaf (.superCall call), next)
        | none => readElement c := by
  unfold readItem
  split
  · rename_i hnil
    rw [hnil] at h
    cases h
  · rename_i other others hother
    obtain rfl : other = first := (List.cons.inj (hother.symm.trans h)).1
    rfl

/-- Where a quote stands, a quoted text is read. -/
theorem readItem_quoted (inBraces : Bool) (h : c.rest = first :: rest)
    (hquote : isQuote first = true) :
    readItem inBraces c =
      (readQuoted first c).map fun (token, next) => (.leaf (token.node c next), next) := by
  rw [readItem_of_rest inBraces h, if_pos hquote]

/-- Where a comment starts, it is the item that is read. -/
theorem readItem_comment (inBraces : Bool) (h : startsComment c.rest = true) :
    readItem inBraces c =
      (readComment c).map fun (token, next) => (.leaf (token.node c next), next) := by
  cases hrest : c.rest with
  | nil =>
      rw [hrest] at h
      cases h
  | cons first rest =>
      have hslash : first = '/' := by
        by_cases hfirst : first = '/'
        · exact hfirst
        · rw [hrest, startsComment_eq_false_of_ne rest hfirst] at h
          cases h
      have hquote : ¬ isQuote first = true := by
        rw [hslash]
        decide
      rw [readItem_of_rest inBraces hrest, if_neg hquote, if_pos h]

/-- Inside braces, a super call is read where one stands. -/
theorem readItem_superCall {d : Cursor} {call : SuperCall}
    (h : readSuperCall? c = some (call, d)) :
    readItem true c = .ok (.leaf (.superCall call), d) := by
  cases hrest : c.rest with
  | nil =>
      rw [readSuperCall?, hrest] at h
      cases h
  | cons first rest =>
      have hletter : first = 's' := by
        by_cases hfirst : first = 's'
        · exact hfirst
        · rw [readSuperCall?, hrest, read?_eq_none_of_ne rest hfirst] at h
          cases h
      have hquote : ¬ isQuote first = true := by
        rw [hletter]
        decide
      have hcomment : ¬ startsComment c.rest = true := by
        rw [hrest, startsComment_eq_false_of_ne rest (by rw [hletter]; decide)]
        decide
      rw [readItem_of_rest true hrest, if_neg hquote, if_neg hcomment, if_pos rfl, h]

/-- Where no other item starts, an element is read. -/
theorem readItem_element (inBraces : Bool) (h : c.rest = first :: rest)
    (hquote : isQuote first = false) (hcomment : startsComment c.rest = false)
    (hsuper : SuperToken.read? c.rest = none) : readItem inBraces c = readElement c := by
  have hnone : readSuperCall? c = none := by
    rw [readSuperCall?, hsuper]
    rfl
  rw [readItem_of_rest inBraces h, hquote, hcomment, hnone, ite_self]
  rfl

end Kinds

/-! ## The start of an item -/

/-- A character that no item starts with. -/
def isForeign (d : Char) : Bool :=
  !(isQuote d || d == '/' || d == '@' || NameClass.tag.isStart d)

section Foreign

variable {c : Cursor} {d : Char} {rest : List Char}

theorem readHeading_foreign (hd : isForeign d = true) (hrest : c.rest = d :: rest) :
    readHeading c = .error ⟨c.offset, .expectedTagName⟩ := by
  simp only [isForeign, Bool.not_eq_true', Bool.or_eq_false_iff, beq_eq_false_iff_ne] at hd
  have hmark : readMark c = (false, c) := by simp [readMark, Cursor.current?, hrest, hd]
  have htag : readTag c = (none, c) := by
    simp [readTag, NameClass.lexeme, segment, hrest, hd.2]
  have hnames : readNames c = (none, c) := by simp [readNames, Cursor.current?, hrest, hd]
  unfold readHeading
  dsimp only
  rw [hmark, htag, hnames]
  rfl

theorem readItem_foreign (inBraces : Bool) (hd : isForeign d = true) (hrest : c.rest = d :: rest) :
    readItem inBraces c = .error ⟨c.offset, .expectedTagName⟩ := by
  have hheading := readHeading_foreign hd hrest
  simp only [isForeign, Bool.not_eq_true', Bool.or_eq_false_iff, beq_eq_false_iff_ne] at hd
  have hcomment : startsComment c.rest = false := by
    rw [hrest]
    exact startsComment_eq_false_of_ne rest hd.1.1.2
  have hsuper : SuperToken.read? c.rest = none := by
    rw [hrest]
    refine read?_eq_none_of_ne rest ?_
    rintro rfl
    exact absurd hd.2 (by decide)
  rw [readItem_element inBraces hrest hd.1.1.1 hcomment hsuper, readElement, hheading]
  rfl

end Foreign

/-- An item starts with a character that items start with. -/
theorem head_of_readItem {c d : Cursor} {inBraces : Bool} {item : Item}
    (h : readItem inBraces c = .ok (item, d)) :
    ∃ first, c.current? = some first ∧ isForeign first = false := by
  obtain ⟨text, hconsumes, hne⟩ := readItem_consumes h
  cases text with
  | nil => exact absurd rfl hne
  | cons first text =>
      have hrest : c.rest = first :: (text ++ d.rest) := hconsumes.rest_eq
      refine ⟨first, by simp [Cursor.current?, hrest], ?_⟩
      cases hforeign : isForeign first with
      | false => rfl
      | true =>
          rw [readItem_foreign inBraces hforeign hrest] at h
          cases h

/-! ## Turns of the loop -/

/-- Where an item can be read, the loop reads it. -/
theorem step_of_readItem {p : Progress} {item : Item × Cursor}
    (h : readItem p.inBraces p.cursor.skipGaps = .ok item) :
    p.step = .ok (some (p.push p.cursor.skipGaps item)) := by
  obtain ⟨first, hfirst, hforeign⟩ := head_of_readItem h
  have hne : first ≠ '\x7d' := by
    rintro rfl
    exact absurd hforeign (by decide)
  obtain ⟨outer, done, cursor⟩ := p
  unfold Progress.step
  cases outer with
  | nil => simp_all [Except.map]
  | cons element outer => simp_all [Except.map]

/-- At a closing brace, the loop closes the innermost element. -/
theorem step_of_closingBrace (element : OpenElement) (outer : List OpenElement)
    (done : List Node) {c : Cursor} (h : c.skipGaps.current? = some '\x7d') :
    Progress.step ⟨element :: outer, done, c⟩ =
      .ok (some ⟨outer, element.close done.reverse (c.skipGaps.past ['\x7d']) :: element.before,
        c.skipGaps.past ['\x7d']⟩) := by
  simp [Progress.step, h]

/-! ## Content as a relation -/

/-- From the first cursor to the second the nodes can be read, inside braces or not. -/
inductive Reads : (inBraces : Bool) → Cursor → List Node → Cursor → Prop
  | nil {inBraces : Bool} {c : Cursor} : Reads inBraces c [] c
  | leaf {inBraces : Bool} {c d e : Cursor} {node : Node} {nodes : List Node}
      (item : readItem inBraces c.skipGaps = .ok (.leaf node, d))
      (rest : Reads inBraces d nodes e) : Reads inBraces c (node :: nodes) e
  | element {inBraces : Bool} {c d e f : Cursor} {heading : Heading} {content nodes : List Node}
      (item : readItem inBraces c.skipGaps = .ok (.opening heading, d))
      (inside : Reads true d content e) (brace : e.skipGaps.current? = some '\x7d')
      (rest : Reads inBraces (e.skipGaps.past ['\x7d']) nodes f) :
      Reads inBraces c
        (heading.node (some content) c.skipGaps (e.skipGaps.past ['\x7d']) :: nodes) f

theorem Reads.append {inBraces : Bool} {c d e : Cursor} {xs ys : List Node}
    (hx : Reads inBraces c xs d) (hy : Reads inBraces d ys e) :
    Reads inBraces c (xs ++ ys) e := by
  induction hx with
  | nil => exact hy
  | leaf item _ ih => exact .leaf item (ih hy)
  | element item inside brace _ _ ih => exact .element item inside brace (ih hy)

/-- Gaps before content make no difference. -/
theorem Reads.of_skipGaps_eq {inBraces : Bool} {c d e : Cursor} {nodes : List Node}
    (h : Reads inBraces c nodes e) (hskip : d.skipGaps = c.skipGaps) :
    ∃ f, Reads inBraces d nodes f ∧ f.skipGaps = e.skipGaps := by
  cases h with
  | nil => exact ⟨d, .nil, hskip⟩
  | leaf item rest => exact ⟨e, .leaf (hskip ▸ item) rest, rfl⟩
  | element item inside brace rest =>
      have h := Reads.element (hskip ▸ item) inside brace rest
      rw [hskip] at h
      exact ⟨e, h, rfl⟩

/-- Reading on from the cursor closes all elements of the stack, the innermost of which has
the nodes `done` already, and gives the nodes of the document. -/
def Completes (nodes : List Node) : List OpenElement → List Node → Cursor → Prop
  | [], done, c => ∃ tail d, Reads false c tail d ∧ d.skipGaps.rest = [] ∧
      nodes = done.reverse ++ tail
  | element :: outer, done, c => ∃ tail d, Reads true c tail d ∧
      d.skipGaps.current? = some '\x7d' ∧
      Completes nodes outer
        (element.close (done.reverse ++ tail) (d.skipGaps.past ['\x7d']) :: element.before)
        (d.skipGaps.past ['\x7d'])

/-- What is read before reading on counts as done. -/
theorem Completes.of_reads {nodes : List Node} {outer : List OpenElement} {done : List Node}
    {node : Node} {c d : Cursor} (hnode : Reads (!outer.isEmpty) c [node] d)
    (h : Completes nodes outer (node :: done) d) : Completes nodes outer done c := by
  cases outer with
  | nil =>
      obtain ⟨tail, last, htail, hend, rfl⟩ := h
      exact ⟨node :: tail, last, hnode.append htail, hend, by simp⟩
  | cons element outer =>
      obtain ⟨tail, last, htail, hbrace, h⟩ := h
      refine ⟨node :: tail, last, hnode.append htail, hbrace, ?_⟩
      simpa using h

theorem completes_of_readContent {p : Progress} {nodes : List Node}
    (h : readContent p = .ok nodes) : Completes nodes p.outer p.done p.cursor := by
  induction p using readContent.induct with
  | case1 p fault hstep =>
      rw [readContent_of_fault hstep] at h
      cases h
  | case2 p hstep =>
      rw [readContent_of_complete hstep] at h
      cases h
      obtain ⟨outer, done, c⟩ := p
      unfold Progress.step at hstep
      dsimp only at hstep
      split at hstep
      · rename_i hend
        refine ⟨[], c, .nil, ?_, by simp⟩
        simpa [Cursor.current?] using hend
      · cases hstep
      · cases hstep
      · obtain ⟨item, -, hitem⟩ := map_eq_ok_iff.1 hstep
        cases hitem
  | case3 p q hstep ih =>
      rw [readContent_of_step hstep] at h
      have hq := ih h
      obtain ⟨outer, done, c⟩ := p
      unfold Progress.step at hstep
      dsimp only at hstep
      split at hstep
      · cases hstep
      · cases hstep
      · rename_i element outer hbrace
        cases hstep
        exact ⟨[], c, .nil, hbrace, by simpa using hq⟩
      · obtain ⟨⟨item, next⟩, hitem, hpush⟩ := map_eq_ok_iff.1 hstep
        cases hpush
        cases item with
        | leaf node => exact .of_reads (.leaf hitem .nil) hq
        | opening heading =>
            obtain ⟨content, last, hcontent, hbrace, hq⟩ := hq
            exact .of_reads (.element hitem hcontent hbrace .nil) hq

/-- Whatever is on the stack, the loop reads what `Reads` describes. -/
theorem readContent_of_reads {inBraces : Bool} {c d : Cursor} {nodes : List Node}
    (h : Reads inBraces c nodes d) :
    ∀ {outer : List OpenElement} {done : List Node}, inBraces = !outer.isEmpty →
      readContent ⟨outer, done, c⟩ = readContent ⟨outer, nodes.reverse ++ done, d⟩ := by
  induction h with
  | nil =>
      intro outer done _
      rfl
  | @leaf inBraces c d e node nodes item _ ih =>
      intro outer done hflag
      rw [hflag] at item
      have hstep := step_of_readItem (p := ⟨outer, done, c⟩) item
      rw [readContent_of_step hstep]
      simpa [Progress.push] using @ih outer (node :: done) hflag
  | @element inBraces c d e f heading content nodes item _ brace _ ihInside ih =>
      intro outer done hflag
      rw [hflag] at item
      have hopen := step_of_readItem (p := ⟨outer, done, c⟩) item
      have hclose := step_of_closingBrace ⟨c.skipGaps, heading, done⟩ outer content.reverse brace
      rw [readContent_of_step hopen]
      simp only [Progress.push]
      rw [ihInside (by simp), List.append_nil, readContent_of_step hclose]
      have hrest := @ih outer
        (heading.node (some content) c.skipGaps (e.skipGaps.past ['\x7d']) :: done) hflag
      simpa [OpenElement.close] using hrest

/-- The loop gives the nodes that can be read up to the end of the source. -/
theorem readContent_eq_ok_iff {c : Cursor} {nodes : List Node} :
    readContent (.start c) = .ok nodes ↔
      ∃ d, Reads false c nodes d ∧ d.skipGaps.rest = [] := by
  constructor
  · intro h
    obtain ⟨tail, d, hreads, hend, rfl⟩ := completes_of_readContent h
    exact ⟨d, hreads, hend⟩
  · rintro ⟨d, hreads, hend⟩
    have hlast : Progress.step ⟨[], nodes.reverse, d⟩ = .ok none := by
      have hcurrent : d.skipGaps.current? = none := by rw [Cursor.current?, hend, List.head?_nil]
      simp only [Progress.step, hcurrent]
    rw [Progress.start, readContent_of_reads hreads (by simp), List.append_nil,
      readContent_of_complete hlast, List.reverse_reverse]

/-! ## Leading comments -/

theorem readLeadingComments_of_comment {c next : Cursor} {token : CommentToken}
    (hstart : startsComment c.skipGaps.rest = true)
    (hread : readComment c.skipGaps = .ok (token, next)) :
    readLeadingComments c = (readLeadingComments next).map fun (nodes, last) =>
      (token.node c.skipGaps next :: nodes, last) := by
  rw [readLeadingComments, if_pos hstart]
  split <;> simp_all

/-- The comments before a declaration are content like any other. -/
theorem reads_of_readLeadingComments {c d : Cursor} {nodes : List Node}
    (h : readLeadingComments c = .ok (nodes, d)) :
    ∃ e, Reads false c nodes e ∧ e.skipGaps = d := by
  induction c using readLeadingComments.induct generalizing nodes d with
  | case1 c hstart fault hread =>
      rw [readLeadingComments, if_pos hstart] at h
      split at h
      · cases h
      · simp_all
  | case2 c hstart token next hread ih =>
      rw [readLeadingComments_of_comment hstart hread] at h
      obtain ⟨⟨others, last⟩, hothers, h⟩ := map_eq_ok_iff.1 h
      cases h
      obtain ⟨e, hreads, rfl⟩ := ih hothers
      have hitem := readItem_comment false hstart
      rw [hread] at hitem
      exact ⟨e, .leaf hitem hreads, rfl⟩
  | case3 c hstart =>
      rw [readLeadingComments, if_neg hstart] at h
      cases h
      exact ⟨c, .nil, rfl⟩

theorem startsComment_of_readItem {inBraces : Bool} {c d : Cursor} {comment : Comment}
    (h : readItem inBraces c = .ok (.leaf (.comment comment), d)) :
    startsComment c.rest = true := by
  have helement : readElement c ≠ .ok (.leaf (.comment comment), d) := by
    intro h
    obtain ⟨⟨heading, next⟩, -, h⟩ := map_eq_ok_iff.1 h
    dsimp only at h
    split at h <;> cases h
  unfold readItem at h
  split at h
  · exact absurd h helement
  · split at h
    · obtain ⟨⟨token, next⟩, -, h⟩ := map_eq_ok_iff.1 h
      cases h
    · split at h
      · assumption
      · split at h
        · cases h
        · exact absurd h helement

/-- Of the content of a source, the comments at its start are read first. -/
theorem readLeadingComments_of_reads {c e : Cursor} {nodes : List Node}
    (h : Reads false c nodes e) (hend : startsComment e.skipGaps.rest = false) :
    ∃ comments others d, nodes = comments ++ others ∧
      readLeadingComments c = .ok (comments, d) ∧ startsComment d.rest = false ∧
      ∃ f, Reads false d others f ∧ f.skipGaps = e.skipGaps ∧ d.skipGaps = d := by
  have hnoComment : ∀ {c e : Cursor} {nodes : List Node}, Reads false c nodes e →
      startsComment c.skipGaps.rest = false →
      ∃ comments others d, nodes = comments ++ others ∧
        readLeadingComments c = .ok (comments, d) ∧ startsComment d.rest = false ∧
        ∃ f, Reads false d others f ∧ f.skipGaps = e.skipGaps ∧ d.skipGaps = d := by
    intro c e nodes hreads hstart
    obtain ⟨f, hf, hskip⟩ := hreads.of_skipGaps_eq c.skipGaps_skipGaps
    refine ⟨[], nodes, c.skipGaps, rfl, ?_, hstart, f, hf, hskip, c.skipGaps_skipGaps⟩
    rw [readLeadingComments, if_neg (by rw [hstart]; decide)]
  generalize hflag : false = inBraces at h
  induction h with
  | nil =>
      subst hflag
      exact hnoComment .nil hend
  | @leaf inBraces c d e node nodes item rest ih =>
      subst hflag
      cases hstart : startsComment c.skipGaps.rest with
      | false => exact hnoComment (.leaf item rest) hstart
      | true =>
          have hread := item
          rw [readItem_comment false hstart] at hread
          obtain ⟨⟨token, next⟩, htoken, hnode⟩ := map_eq_ok_iff.1 hread
          cases hnode
          obtain ⟨comments, others, last, rfl, hcomments, hrest⟩ := ih hend rfl
          refine ⟨token.node c.skipGaps d :: comments, others, last, rfl, ?_, hrest⟩
          rw [readLeadingComments_of_comment hstart htoken, hcomments]
          rfl
  | @element inBraces c d e f heading content nodes item inside brace rest _ _ =>
      subst hflag
      cases hstart : startsComment c.skipGaps.rest with
      | false => exact hnoComment (.element item inside brace rest) hstart
      | true =>
          rw [readItem_comment false hstart] at item
          obtain ⟨⟨token, next⟩, -, hnode⟩ := map_eq_ok_iff.1 item
          cases hnode

/-! ## Sources -/

/-- A document that is parsed is read without a mistake. -/
theorem readBlock_of_parse {source : String} {block : Block} (h : parse source = .ok block) :
    readBlock source = .ok block := by
  unfold parse at h
  cases hblock : readBlock source with
  | error fault =>
      rw [hblock] at h
      cases h
  | ok b =>
      rw [hblock] at h
      cases h
      rfl

/-- A document is comments, a declaration that may be missing, and content, all of it read from
the source. -/
theorem parts_of_parse {source : String} {block : Block} (h : parse source = .ok block) :
    ∃ comments m declaration d nodes e,
      readLeadingComments (.start source.toList) = .ok (comments, m) ∧
        readDeclaration m = .ok (declaration, d) ∧ Reads false d nodes e ∧
        e.skipGaps.rest = [] ∧
        block = ⟨declaration, declaration.map (·.name), comments ++ nodes, 0, source⟩ := by
  obtain ⟨⟨comments, m⟩, hcomments, hread⟩ := bind_eq_ok_iff.1 (readBlock_of_parse h)
  obtain ⟨⟨declaration, d⟩, hdeclaration, hread⟩ := bind_eq_ok_iff.1 hread
  obtain ⟨nodes, hnodes, hread⟩ := bind_eq_ok_iff.1 hread
  obtain ⟨e, hreads, hend⟩ := readContent_eq_ok_iff.1 hnodes
  cases hread
  exact ⟨comments, m, declaration, d, nodes, e, hcomments, hdeclaration, hreads, hend, rfl⟩

end BemMarkup.Document

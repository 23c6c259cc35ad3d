import BemMarkup.Proofs.Document.Printing
import BemMarkup.Proofs.Document.Rereading

/-!
# Excerpts of a document

The text of an element, of a quoted text or of a comment can be cut out of a document and read
alone.  It gives the same node, with all places counted from the start of the excerpt.

A reader of content may end behind a gap or before it, and the two cannot be told apart by what
is read next.  So an item is read again up to a gap, and this is enough for the items behind it.
Content between braces is read again whatever comes behind the braces.

## Main definitions

* `RereadsItem`: what is read where the text of an item stands before another text.
* `Node.StandsAlone`: the text of a node gives the node again.

## Main results

* `readItem_again`: items are read again where the text behind them goes on alike.
* `Reads.again`: so is content.
* `parse_standsAlone`: all nodes of a document but super calls stand alone.
-/

namespace BemMarkup.Document

open Text

/-! ## Items that are moved -/

/-- What is read as an item, with the offsets of all records in it changed. -/
def Item.moved (f : Nat → Nat) : Item → Item
  | .leaf node => .leaf (node.moved f)
  | .opening heading => .opening (heading.moved f)

section Items

variable {c c' d d' : Cursor} {f : Nat → Nat} {text rest rest' : List Char}

theorem Translates.comment (hf : Translates f c c') (token : CommentToken)
    (h : c.Consumes text d) (h' : c'.Consumes text d') :
    token.node c' d' = (token.node c d).moved f := by
  rw [CommentToken.node, CommentToken.node, Node.moved, hf.spanTo h h']

theorem Translates.literal (hf : Translates f c c') (token : QuotedToken)
    (h : c.Consumes text d) (h' : c'.Consumes text d') :
    token.node c' d' = (token.node c d).moved f := by
  rw [QuotedToken.node, QuotedToken.node, Node.moved, hf.spanTo h h']

theorem Translates.element (hf : Translates f c c') (heading : Heading)
    (content : Option (List Node)) (h : trim (c'.upTo d') = trim (c.upTo d)) :
    (heading.moved f).node (content.map (Node.movedAll f)) c' d' =
      (heading.node content c d).moved f := by
  cases content <;> simp [Heading.node, Node.moved, Span.moved, hf.offset, h]

/-- An item is a quoted text, a comment, a super call or a part of an element. -/
theorem readItem_cases {inBraces : Bool} {item : Item} (h : readItem inBraces c = .ok (item, d)) :
    (∃ quote cs token, c.rest = quote :: cs ∧ isQuote quote = true ∧
        readQuoted quote c = .ok (token, d) ∧ item = .leaf (token.node c d)) ∨
      (∃ token, startsComment c.rest = true ∧ readComment c = .ok (token, d) ∧
        item = .leaf (token.node c d)) ∨
      (∃ call, inBraces = true ∧ readSuperCall? c = some (call, d) ∧
        item = .leaf (.superCall call)) ∨
      Heads (fun e => isQuote e = false) c.rest ∧ startsComment c.rest = false ∧
        readElement c = .ok (item, d) := by
  unfold readItem at h
  split at h
  · rename_i hnil
    rw [hnil]
    exact .inr (.inr (.inr ⟨.nil, rfl, h⟩))
  · rename_i first rest hrest
    split at h
    · rename_i hquote
      obtain ⟨⟨token, next⟩, htoken, h⟩ := map_eq_ok_iff.1 h
      cases h
      exact .inl ⟨first, rest, token, hrest, hquote, htoken, rfl⟩
    · rename_i hquote
      split at h
      · rename_i hcomment
        obtain ⟨⟨token, next⟩, htoken, h⟩ := map_eq_ok_iff.1 h
        cases h
        exact .inr (.inl ⟨token, hcomment, htoken, rfl⟩)
      · rename_i hcomment
        split at h
        · rename_i call next hcall
          cases h
          split at hcall
          · rename_i hbraces
            exact .inr (.inr (.inl ⟨call, hbraces, hcall, rfl⟩))
          · cases hcall
        · refine .inr (.inr (.inr ⟨?_, by simpa using hcomment, h⟩))
          rw [hrest]
          exact .cons (by simpa using hquote) _

/-- A quoted text is read again, whatever comes behind it. -/
theorem readItem_quoted_again (inBraces : Bool) {quote : Char} {cs : List Char}
    {token : QuotedToken} (hcons : c.rest = quote :: cs) (hquote : isQuote quote = true)
    (h : readQuoted quote c = .ok (token, d)) (hrest : c'.rest = token.lexeme ++ rest)
    (hf : Translates f c c') :
    readItem inBraces c' = .ok (.leaf ((token.node c d).moved f), c'.past token.lexeme) := by
  have hsame := (isValid_of_readQuoted hquote hcons h).2
  have hfirst : c'.rest = quote :: (token.body ++ [token.quote] ++ rest) := by
    rw [hrest, QuotedToken.lexeme, hsame]
    rfl
  rw [readItem_quoted inBraces hfirst hquote, readQuoted_again hquote hcons h hrest,
    ← hf.literal token (readQuoted_consumes hcons h) (Cursor.past_consumes_of_rest rest hrest)]
  rfl

/-- A comment is read again where its line ends. -/
theorem readItem_comment_again (inBraces : Bool) {token : CommentToken}
    (h : readComment c = .ok (token, d))
    (hline : token.isMultiline = false → rest = [] ∨ StartsWithBreak rest)
    (hrest : c'.rest = token.lexeme ++ rest) (hf : Translates f c c') :
    readItem inBraces c' = .ok (.leaf ((token.node c d).moved f), c'.past token.lexeme) := by
  have hstart : startsComment c'.rest = true := by
    rw [hrest]
    exact startsComment_lexeme_append token rest
  rw [readItem_comment inBraces hstart, readComment_again h hline hrest,
    ← hf.comment token (readComment_consumes h) (Cursor.past_consumes_of_rest rest hrest)]
  rfl

/-- The start of a heading is no item of another kind where the text behind it goes on alike. -/
theorem readItem_heading_again {α : Type} (inBraces : Bool)
    {read : Cursor → Except Fault (α × Cursor)} {moved : (Nat → Nat) → α → α} {value : α}
    {core : List Char} (h : Rereads read moved c value core rest d) (hne : core ≠ [])
    (hquote : Heads (fun e => isQuote e = false) c.rest) (hcomment : startsComment c.rest = false)
    (hrest : c'.rest = core ++ rest') (hcontinues : Continues rest rest') :
    readItem inBraces c' = readElement c' := by
  cases core with
  | nil => exact absurd rfl hne
  | cons first core =>
      have hall := h.rest_eq
      refine readItem_element inBraces hrest (hquote first (by rw [hall]; rfl)) ?_ ?_
      · rw [hrest]
        exact h.toPiece.startsComment hne (hall ▸ hcomment) hcontinues
      · rw [hrest]
        exact h.quiet rest' hne hcontinues

/-- An element without braces is read again.  Of the gap behind it, the same belongs to it. -/
theorem readElement_leaf_again {heading : Heading} {core : List Char}
    (h : Rereads readHeading Heading.moved c heading core rest d) (hne : core ≠ [])
    (hbrace : d.current? ≠ some '\x7b') (hrest : c'.rest = core ++ rest')
    (hcontinues : Continues rest rest') (hf : Translates f c c') :
    readElement c' = .ok (.leaf ((heading.node none c d).moved f), (c'.past core).skipGaps) := by
  have hread := h.again (f := f) (by rw [hrest, h.toPiece.dropWhile hne]) hcontinues.behind
    fun _ => ⟨hcontinues, hf⟩
  have hlast : d = (c.past core).skipGaps := h.last
  have hbrace' : ¬ (c'.past core).skipGaps.current? = some '\x7b' := by
    rw [hlast, Cursor.current?, Cursor.skipGaps_rest, Cursor.rest_past h.rest_eq] at hbrace
    rw [Cursor.current?, Cursor.skipGaps_rest, Cursor.rest_past hrest]
    exact hcontinues.behind.head_ne (by simp) hbrace
  have hconsumes : c.Consumes (core ++ rest.takeWhile isGap) d := by
    rw [hlast]
    have hgap := (c.past core).skipGaps_consumes
    rw [Cursor.rest_past h.rest_eq] at hgap
    exact (Cursor.past_consumes_of_rest rest h.rest_eq).trans hgap
  have hconsumes' : c'.Consumes (core ++ rest'.takeWhile isGap) (c'.past core).skipGaps := by
    have hgap := (c'.past core).skipGaps_consumes
    rw [Cursor.rest_past hrest] at hgap
    exact (Cursor.past_consumes_of_rest rest' hrest).trans hgap
  have htrim : trim (c'.upTo (c'.past core).skipGaps) = trim (c.upTo d) := by
    rw [hconsumes.upTo_eq, hconsumes'.upTo_eq, (h.solid hne).trim_append,
      (h.solid hne).trim_append, hcontinues.gap]
  rw [← hf.element heading none htrim, readElement, hread]
  simp only [Except.map, if_neg hbrace']
  rfl

/-- An element is read again up to its opening brace, whatever comes behind that. -/
theorem readElement_opening_again {heading : Heading} {core gap : List Char}
    (h : Rereads readHeading Heading.moved c heading core (gap ++ '{' :: rest) d)
    (hne : core ≠ []) (hgap : Blank gap) (hrest : c'.rest = core ++ (gap ++ '{' :: rest'))
    (hf : Translates f c c') :
    readElement c' =
      .ok (.opening (heading.moved f), c'.past (core ++ (gap ++ ['{']))) := by
  have hcontinues : Continues (gap ++ '{' :: rest) (gap ++ '{' :: rest') :=
    .of_mark hgap (by decide) (by decide) (by decide) rest rest'
  have hread := h.again (f := f) (by rw [hrest, h.toPiece.dropWhile hne]) hcontinues.behind
    fun _ => ⟨hcontinues, hf⟩
  have hat := Cursor.rest_past hrest
  have hskip := skipGaps_eq hgap hat (.cons (by decide) _)
  have hbrace : ((c'.past core).past gap).current? = some '{' :=
    Cursor.current?_of_rest_eq (Cursor.rest_past hat)
  rw [readElement, hread, hskip]
  simp only [Except.map, if_pos hbrace]
  rw [Cursor.past_past, Cursor.past_past]

theorem piece_quoted {token : QuotedToken} (hquote : isQuote token.quote = true)
    (rest : List Char) : Piece token.lexeme rest := by
  simp only [isQuote, Bool.or_eq_true, beq_iff_eq, or_assoc] at hquote
  rw [QuotedToken.lexeme]
  rcases hquote with hquote | hquote | hquote <;> rw [hquote] <;>
    exact .cons (by decide) (.inl (by decide)) (by decide) _ _

theorem piece_comment (token : CommentToken) (rest : List Char) : Piece token.lexeme rest := by
  unfold CommentToken.lexeme
  split <;> exact ⟨.cons (by decide) _, .cons (.inl (by decide)) _, by simp⟩

theorem piece_superCall (token : SuperToken) (rest : List Char) : Piece token.lexeme rest := by
  obtain ⟨e, cs, hlexeme, -⟩ := token.lexeme_start
  rw [hlexeme]
  exact .cons (by decide) (.inr (by decide)) (by decide) _ _

/-- What is read when the text of an item stands before another text that goes on alike: the same
item.  The gap behind an item may have been taken with it or not. -/
def RereadsItem (inBraces : Bool) (c : Cursor) (item : Item) (d : Cursor) : Prop :=
  ∃ core gap, core ≠ [] ∧ Blank gap ∧ c.Consumes (core ++ gap) d ∧ Piece core (gap ++ d.rest) ∧
    ∀ {c' : Cursor} {rest' : List Char} {f : Nat → Nat}, c'.rest = core ++ rest' →
      Continues (gap ++ d.rest) rest' → Translates f c c' →
        ∃ d', readItem inBraces c' = .ok (item.moved f, d') ∧
          d'.skipGaps = (c'.past core).skipGaps

/-- An element is read again, up to its opening brace if it has one. -/
theorem readElement_again (inBraces : Bool) {item : Item}
    (hquote : Heads (fun e => isQuote e = false) c.rest) (hcomment : startsComment c.rest = false)
    (helement : readElement c = .ok (item, d)) : RereadsItem inBraces c item d := by
  obtain ⟨⟨heading, next⟩, hheading, hitem⟩ := map_eq_ok_iff.1 helement
  obtain ⟨core, rest, hne, hrereads⟩ := readHeading_again hheading
  have hgap := (c.past core).skipGaps_consumes
  have hblank := blank_takeWhile (c.past core).rest
  rw [← hrereads.last] at hgap
  generalize (c.past core).rest.takeWhile isGap = gap at hgap hblank
  have hrest : rest = gap ++ next.rest := by
    rw [← hgap.rest_eq, Cursor.rest_past hrereads.rest_eq]
  have hfront := (Cursor.past_consumes_of_rest rest hrereads.rest_eq).trans hgap
  dsimp only at hitem
  split at hitem
  · rename_i hbrace
    cases hitem
    obtain ⟨tail, htail⟩ := Cursor.rest_eq_of_current? hbrace
    have hlast : (next.past ['{']).rest = tail := Cursor.rest_past (by rw [htail]; rfl)
    rw [hrest, htail] at hrereads
    have hpiece : Piece (core ++ (gap ++ ['{'])) tail :=
      hrereads.toPiece.append hne (by simp)
    refine ⟨core ++ (gap ++ ['{']), [], by simp, .nil, ?_, by rw [hlast]; exact hpiece, ?_⟩
    · simpa using hfront.trans (Cursor.past_current_consumes hbrace)
    · intro c' rest' f hc' _ hf
      have hc'' : c'.rest = core ++ (gap ++ '{' :: rest') := by simp [hc']
      refine ⟨_, ?_, rfl⟩
      rw [readItem_heading_again inBraces hrereads hne hquote hcomment hc''
        (.of_mark hblank (by decide) (by decide) (by decide) tail rest')]
      exact readElement_opening_again hrereads hne hblank hc'' hf
  · rename_i hbrace
    cases hitem
    refine ⟨core, gap, hne, hblank, hfront, hrest ▸ hrereads.toPiece, ?_⟩
    intro c' rest' f hc' hcontinues hf
    rw [← hrest] at hcontinues
    refine ⟨(c'.past core).skipGaps, ?_, Cursor.skipGaps_skipGaps _⟩
    rw [readItem_heading_again inBraces hrereads hne hquote hcomment hc' hcontinues]
    exact readElement_leaf_again hrereads hne hbrace hc' hcontinues hf

/-- Items that have been read are read again where the text behind them goes on alike. -/
theorem readItem_again {inBraces : Bool} {item : Item} (h : readItem inBraces c = .ok (item, d)) :
    RereadsItem inBraces c item d := by
  rcases readItem_cases h with ⟨quote, cs, token, hcons, hquote, htoken, rfl⟩ |
    ⟨token, hcomment, htoken, rfl⟩ | ⟨call, rfl, hcall, rfl⟩ | ⟨hquote, hcomment, helement⟩
  · have hconsumes := readQuoted_consumes hcons htoken
    have hsame := (isValid_of_readQuoted hquote hcons htoken).2
    refine ⟨token.lexeme, [], token.lexeme_ne_nil, .nil, by simpa using hconsumes,
      piece_quoted (by rw [hsame]; exact hquote) _, ?_⟩
    intro c' rest' f hrest _ hf
    exact ⟨_, readItem_quoted_again inBraces hcons hquote htoken hrest hf, rfl⟩
  · have hconsumes := readComment_consumes htoken
    refine ⟨token.lexeme, [], token.lexeme_ne_nil, .nil, by simpa using hconsumes,
      piece_comment token _, ?_⟩
    intro c' rest' f hrest hcontinues hf
    refine ⟨_, readItem_comment_again inBraces htoken (fun hmark => ?_) hrest hf, rfl⟩
    exact hcontinues.line ((isValid_of_readComment htoken).2 hmark)
  · obtain ⟨token, htoken, hnext⟩ := Option.map_eq_some_iff.1 hcall
    cases hnext
    have hconsumes := Cursor.past_consumes (SuperToken.lexeme_prefix htoken)
    refine ⟨token.lexeme, [], token.lexeme_ne_nil, .nil, by simpa using hconsumes,
      piece_superCall token _, ?_⟩
    intro c' rest' f hrest _ hf
    have hagain := readSuperCall?_printed (isValid_of_read? htoken) hrest
    rw [hf.spanTo hconsumes (Cursor.past_consumes_of_rest _ hrest)] at hagain
    exact ⟨_, readItem_superCall hagain, rfl⟩
  · exact readElement_again inBraces hquote hcomment helement

end Items

/-! ## Content -/

section Content

variable {c c' d e : Cursor} {inBraces : Bool} {nodes : List Node} {text rest : List Char}
  {f : Nat → Nat}

theorem continues_of_readItem {item : Item} (h : readItem inBraces c.skipGaps = .ok (item, d))
    (htext : c.Consumes text d) (hrest : Continues d.rest rest) :
    Continues c.rest (text ++ rest) := by
  obtain ⟨core, gap, -, hblank, hconsumes, hpiece, -⟩ := readItem_again h
  have hgap := c.skipGaps_consumes
  have hblank' := blank_takeWhile c.rest
  generalize c.rest.takeWhile isGap = gap' at hgap hblank'
  have hall := hgap.trans hconsumes
  cases htext.text_unique hall
  have hbehind : Continues (gap ++ ([] ++ d.rest)) (gap ++ ([] ++ rest)) :=
    Piece.nil.continues hblank hrest
  have hfront := hpiece.continues hblank' hbehind
  rw [hall.rest_eq]
  simpa using hfront

/-- Texts that go on alike do so with content before them. -/
theorem Reads.continues (h : Reads inBraces c nodes d) (htext : c.Consumes text d)
    (hrest : Continues d.rest rest) : Continues c.rest (text ++ rest) := by
  induction h generalizing text rest with
  | nil =>
      cases htext.text_unique (.refl _)
      exact hrest
  | @leaf inBraces c d e node nodes item others ih =>
      obtain ⟨last, hlast, -⟩ := others.laid
      obtain ⟨core, hcore, -⟩ := readItem_consumes item
      have hfirst := c.skipGaps_consumes.trans hcore
      cases htext.text_unique (hfirst.trans hlast)
      rw [List.append_assoc]
      exact continues_of_readItem item hfirst (ih hlast hrest)
  | @element inBraces c d e f heading content nodes item inside brace others ihInside ih =>
      obtain ⟨last, hlast, -⟩ := others.laid
      obtain ⟨inner, hinner, -⟩ := inside.laid
      obtain ⟨core, hcore, -⟩ := readItem_consumes item
      have hfirst := c.skipGaps_consumes.trans hcore
      have hgap := e.skipGaps_consumes
      have hblank := blank_takeWhile e.rest
      generalize e.rest.takeWhile isGap = gap at hgap hblank
      have hclose := hgap.trans (Cursor.past_current_consumes brace)
      cases htext.text_unique (hfirst.trans (hinner.trans (hclose.trans hlast)))
      have hbehind : Continues e.rest (gap ++ '\x7d' :: (last ++ rest)) := by
        rw [hclose.rest_eq, List.append_assoc]
        exact .of_mark hblank (by decide) (by decide) (by decide) _ _
      have hall := continues_of_readItem item hfirst (ihInside hinner hbehind)
      simpa using hall

/-- An element with braces is read again, whatever comes behind it, if its content is. -/
theorem braced_again {heading : Heading} {content : List Node} {inner : List Char}
    (item : readItem inBraces c = .ok (.opening heading, d)) (hinner : d.Consumes inner e)
    (inside : Reads true d content e) (brace : e.skipGaps.current? = some '\x7d')
    (hcontent : ∀ {c' : Cursor} {rest' : List Char}, c'.rest = inner ++ rest' →
      Continues e.rest rest' → Translates f d c' →
        ∃ e', Reads true c' (Node.movedAll f content) e' ∧
          e'.skipGaps = (c'.past inner).skipGaps)
    (htext : c.Consumes text (e.skipGaps.past ['\x7d'])) (hrest : c'.rest = text ++ rest)
    (hf : Translates f c c') :
    Reads inBraces c'
      [(heading.node (some content) c (e.skipGaps.past ['\x7d'])).moved f] (c'.past text) := by
  obtain ⟨core, gap, hne, hblank, hconsumes, hpiece, hagain⟩ := readItem_again item
  have hgap := e.skipGaps_consumes
  have hblank' := blank_takeWhile e.rest
  generalize e.rest.takeWhile isGap = gap' at hgap hblank'
  have hclose := hgap.trans (Cursor.past_current_consumes brace)
  cases htext.text_unique (hconsumes.trans (hinner.trans hclose))
  have hall : c'.rest = core ++ (gap ++ (inner ++ (gap' ++ '\x7d' :: rest))) := by simp [hrest]
  have h1 := Cursor.rest_past hall
  have h2 := Cursor.rest_past h1
  have h3 := Cursor.rest_past h2
  have h4 := Cursor.rest_past h3
  have hbehind : Continues e.rest (gap' ++ '\x7d' :: rest) := by
    rw [hclose.rest_eq, List.append_assoc]
    exact .of_mark hblank' (by decide) (by decide) (by decide) _ _
  have hfollow : Continues (gap ++ ([] ++ d.rest)) (gap ++ ([] ++ _)) :=
    Piece.nil.continues hblank (inside.continues hinner hbehind)
  obtain ⟨d', hitem, hskip⟩ := hagain hall hfollow hf
  obtain ⟨e', hinside, hlast⟩ := hcontent h2 hbehind (by
    rw [hconsumes.eq_past, ← Cursor.past_past]
    exact (hf.past core).past gap)
  rw [skipGaps_of_blank hblank h1] at hskip
  obtain ⟨e'', hinside', hlast'⟩ := hinside.of_skipGaps_eq hskip
  have hat : e''.skipGaps = (((c'.past core).past gap).past inner).past gap' := by
    rw [hlast', hlast]
    exact skipGaps_eq hblank' h3 (.cons (by decide) _)
  have hbrace' : e''.skipGaps.current? = some '\x7d' := by
    rw [hat, Cursor.current?, h4]
    rfl
  have hend : e''.skipGaps.past ['\x7d'] =
      c'.past (core ++ gap ++ (inner ++ (gap' ++ ['\x7d']))) := by
    rw [hat]
    simp [Cursor.past_past]
  have hstart : c'.skipGaps = c' := by
    refine skipGaps_of_gapless ?_
    rw [hall, ← hpiece.dropWhile hne]
    exact gapless_dropWhile _
  have hread : Reads inBraces c' _ _ :=
    .element (by rw [hstart]; exact hitem) hinside' hbrace' .nil
  rw [hstart, hend] at hread
  have hsame : trim (c'.upTo (c'.past (core ++ gap ++ (inner ++ (gap' ++ ['\x7d']))))) =
      trim (c.upTo (e.skipGaps.past ['\x7d'])) := by
    rw [htext.upTo_eq, (Cursor.past_consumes_of_rest rest hrest).upTo_eq]
  have hnode := hf.element heading (some content) hsame
  rw [← hnode]
  exact hread

/-- Content that has been read is read again where the text behind it goes on alike. -/
theorem Reads.again (h : Reads inBraces c nodes d) (htext : c.Consumes text d)
    (hrest : c'.rest = text ++ rest) (hcontinues : Continues d.rest rest)
    (hf : Translates f c c') :
    ∃ d', Reads inBraces c' (Node.movedAll f nodes) d' ∧ d'.skipGaps = (c'.past text).skipGaps := by
  induction h generalizing c' text rest with
  | nil =>
      cases htext.text_unique (.refl _)
      exact ⟨c', .nil, by rw [Cursor.past_nil]⟩
  | @leaf inBraces c d e node nodes item others ih =>
      obtain ⟨last, hlast, -⟩ := others.laid
      obtain ⟨core, gap, hne, hblank, hconsumes, hpiece, hagain⟩ := readItem_again item
      have hgap := c.skipGaps_consumes
      have hblank' := blank_takeWhile c.rest
      generalize c.rest.takeWhile isGap = gap' at hgap hblank'
      cases htext.text_unique (hgap.trans (hconsumes.trans hlast))
      have hall : c'.rest = gap' ++ (core ++ (gap ++ (last ++ rest))) := by simp [hrest]
      have h1 := Cursor.rest_past hall
      have h2 := Cursor.rest_past h1
      have h3 := Cursor.rest_past h2
      have hskip : c'.skipGaps = c'.past gap' := by
        refine skipGaps_eq hblank' hall ?_
        rw [← hpiece.dropWhile hne]
        exact gapless_dropWhile _
      have hat : Translates f c.skipGaps (c'.past gap') := by
        rw [hgap.eq_past]
        exact hf.past gap'
      have hfollow : Continues (gap ++ ([] ++ d.rest)) (gap ++ ([] ++ (last ++ rest))) :=
        Piece.nil.continues hblank (others.continues hlast hcontinues)
      obtain ⟨d', hitem, hskip'⟩ := hagain h1 hfollow hat
      obtain ⟨e', hothers, hend⟩ := ih hlast h3 hcontinues (by
        rw [hconsumes.eq_past, ← Cursor.past_past]
        exact (hat.past core).past gap)
      rw [skipGaps_of_blank hblank h2] at hskip'
      obtain ⟨e'', hothers', hend'⟩ := hothers.of_skipGaps_eq hskip'
      refine ⟨e'', .leaf (by rw [hskip]; exact hitem) hothers', ?_⟩
      rw [hend', hend]
      simp [Cursor.past_past]
  | @element inBraces c d e last' heading content nodes item inside brace others ihInside ih =>
      obtain ⟨last, hlast, -⟩ := others.laid
      obtain ⟨inner, hinner, -⟩ := inside.laid
      obtain ⟨core, hcore, -⟩ := readItem_consumes item
      have hgap := c.skipGaps_consumes
      have hblank := blank_takeWhile c.rest
      generalize c.rest.takeWhile isGap = gap at hgap hblank
      have hbraced := hcore.trans (hinner.trans (e.skipGaps_consumes.trans
        (Cursor.past_current_consumes brace)))
      generalize core ++ (inner ++ (e.rest.takeWhile isGap ++ ['\x7d'])) = braced at hbraced
      cases htext.text_unique (hgap.trans (hbraced.trans hlast))
      have hall : c'.rest = gap ++ (braced ++ (last ++ rest)) := by simp [hrest]
      have h1 := Cursor.rest_past hall
      have h2 := Cursor.rest_past h1
      have hat : Translates f c.skipGaps (c'.past gap) := by
        rw [hgap.eq_past]
        exact hf.past gap
      have hnode := braced_again item hinner inside brace
        (fun h h' h'' => ihInside hinner h h' h'') hbraced h1 hat
      obtain ⟨e', hothers, hend⟩ := ih hlast h2 hcontinues (by
        rw [hbraced.eq_past]
        exact hat.past braced)
      obtain ⟨e'', hall', hend'⟩ :=
        (hnode.append hothers).of_skipGaps_eq (skipGaps_of_blank hblank hall)
      refine ⟨e'', hall', ?_⟩
      rw [hend', hend]
      simp [Cursor.past_past]

end Content

/-! ## Moving back -/

section Back

variable {f g : Nat → Nat} {offset : Nat} {text : List Char}

theorem Heading.LaidIn.moved_moved {heading : Heading} (h : heading.LaidIn offset text)
    (hback : ∀ n, offset ≤ n → g (f n) = n) : (heading.moved f).moved g = heading := by
  obtain ⟨isHelper, tag, names, attributes⟩ := heading
  cases attributes with
  | none => rfl
  | some group =>
      obtain ⟨superCall, entries, span⟩ := group
      obtain ⟨hspan, -, hcalls⟩ := h _ rfl
      have hgroup := hback span.offset hspan.le_offset
      cases superCall with
      | none => simp [Heading.moved, AttributeGroup.moved, Span.moved, hgroup]
      | some call =>
          have hcall := hback call.span.offset
            (Nat.le_trans hspan.le_offset (hcalls call rfl).1.le_offset)
          simp [Heading.moved, AttributeGroup.moved, SuperCall.moved, Span.moved, hgroup, hcall]

theorem Span.moved_moved {span : Span} (hback : ∀ n, span.offset ≤ n → g (f n) = n) :
    (span.moved f).moved g = span := by
  simp [Span.moved, hback span.offset (Nat.le_refl _)]

theorem Node.IsFlat.moved_moved {node : Node} (h : node.IsFlat)
    (hback : ∀ n, node.span.offset ≤ n → g (f n) = n) : (node.moved f).moved g = node := by
  have hspan := Span.moved_moved hback
  match node, h, hback, hspan with
  | .element ⟨heading, none, span⟩, h, hback, hspan =>
      have hheading := Heading.LaidIn.moved_moved h hback
      simp only [Node.span] at hspan
      simp [Node.moved, hheading, hspan]
  | .literal l, _, _, hspan =>
      simp only [Node.span] at hspan
      simp [Node.moved, hspan]
  | .comment l, _, _, hspan =>
      simp only [Node.span] at hspan
      simp [Node.moved, hspan]
  | .superCall call, _, _, hspan =>
      simp only [Node.span] at hspan
      simp [Node.moved, SuperCall.moved, hspan]

/-- Nodes that lie behind an offset are restored by moving them back. -/
theorem Laid.moved_moved {nodes : List Node} (h : Laid offset text nodes)
    (hback : ∀ n, offset ≤ n → g (f n) = n) :
    Node.movedAll g (Node.movedAll f nodes) = nodes := by
  induction h with
  | nil => rfl
  | @flat offset gap rest node nodes blank start ne parts others ih =>
      have hlt := Span.offset_lt_finish ne
      have hnode := parts.moved_moved fun n hn => hback n (by omega)
      have hothers := ih fun n hn => hback n (by omega)
      rw [Node.movedAll, Node.movedAll, hnode, hothers]
  | @braced offset gap rest head interior heading span content nodes blank start text parts inside
      others ihInside ih =>
      have hlt := Span.offset_lt_finish (Span.text_ne_of_braces text)
      have hspan : (span.moved f).moved g = span :=
        Span.moved_moved fun n hn => hback n (by omega)
      have hheading := parts.moved_moved fun n hn => hback n (by omega)
      have hcontent := ihInside fun n hn => hback n (by omega)
      have hothers := ih fun n hn => hback n (by omega)
      simp only [Node.movedAll, Node.moved, hspan, hheading, hcontent, hothers]

end Back

/-! ## Nodes alone -/

/-- The text of the node, read alone, gives the node and nothing else, with all places in it
counted from its own start. -/
def Node.StandsAlone (node : Node) : Prop :=
  ∃ block alone, parse node.span.text = .ok block ∧ block.declaration = none ∧
    block.content = [alone] ∧ alone = node.moved (· - node.span.offset) ∧
      node = alone.moved (· + node.span.offset)

/-- A source that is content alone is parsed as that. -/
theorem parse_of_reads {source : String} {d : Cursor} {nodes : List Node}
    (h : Reads false (.start source.toList) nodes d) (hend : d.skipGaps.rest = []) :
    parse source = .ok ⟨none, none, nodes, 0, source⟩ := by
  obtain ⟨leading, others, m, rfl, hleading, -, e, hothers, he, hskip⟩ :=
    readLeadingComments_of_reads h (by rw [hend]; rfl)
  have hend' : e.skipGaps.rest = [] := by rw [he, hend]
  have hdeclaration : readDeclaration m = .ok (none, m) := by
    rw [readDeclaration, if_neg (hothers.head_ne_hash hskip hend')]
  exact parse_of_parts hleading hdeclaration (readContent_eq_ok_iff.2 ⟨e, hothers, hend'⟩)

section Alone

variable {c d e : Cursor} {inBraces : Bool} {nodes : List Node}

theorem translates_start (c : Cursor) (text : List Char) :
    Translates (· - c.offset) c (.start text) := by
  intro n
  simp [Cursor.start]

theorem standsAlone_of_reads {node : Node} {text : List Char}
    (hlaid : Laid node.span.offset text [node]) (htext : node.span.text = String.ofList text)
    (h : Reads false (.start text) [node.moved (· - node.span.offset)] d)
    (hend : d.skipGaps.rest = []) : node.StandsAlone := by
  have hback := hlaid.moved_moved (f := (· - node.span.offset)) (g := (· + node.span.offset))
    fun n hn => Nat.sub_add_cancel hn
  refine ⟨_, _, parse_of_reads (by rw [htext, String.toList_ofList]; exact h) hend, rfl, rfl, rfl,
    (List.cons.inj hback).1.symm⟩

theorem gapless_of_readItem {item : Item} (h : readItem inBraces c = .ok (item, d)) :
    Gapless c.rest := by
  obtain ⟨core, gap, hne, -, hconsumes, hpiece, -⟩ := readItem_again h
  rw [hconsumes.rest_eq, List.append_assoc, ← hpiece.dropWhile hne]
  exact gapless_dropWhile _

/-- A node without braces is read from its own text, unless it is a super call. -/
theorem readItem_alone {node : Node} (h : readItem inBraces c = .ok (.leaf node, d))
    (hsuper : ∀ call, node ≠ .superCall call) :
    ∃ text d', node.span = ⟨c.offset, String.ofList text⟩ ∧
      readItem false (.start text) = .ok (.leaf (node.moved (· - c.offset)), d') ∧
      d'.skipGaps.rest = [] := by
  rcases readItem_cases h with ⟨quote, cs, token, hcons, hquote, htoken, hitem⟩ |
    ⟨token, hcomment, htoken, hitem⟩ | ⟨call, -, -, hitem⟩ | ⟨hquote, hcomment, helement⟩
  · cases hitem
    have hrest : (Cursor.start token.lexeme).rest = token.lexeme ++ [] := by simp [Cursor.start]
    refine ⟨_, _, (readQuoted_consumes hcons htoken).spanTo_eq,
      readItem_quoted_again false hcons hquote htoken hrest (translates_start c _), ?_⟩
    rw [Cursor.skipGaps_rest, Cursor.rest_past hrest]
    rfl
  · cases hitem
    have hrest : (Cursor.start token.lexeme).rest = token.lexeme ++ [] := by simp [Cursor.start]
    refine ⟨_, _, (readComment_consumes htoken).spanTo_eq,
      readItem_comment_again false htoken (fun _ => .inl rfl) hrest (translates_start c _), ?_⟩
    rw [Cursor.skipGaps_rest, Cursor.rest_past hrest]
    rfl
  · cases hitem
    exact absurd rfl (hsuper call)
  · obtain ⟨⟨heading, next⟩, hheading, hitem⟩ := map_eq_ok_iff.1 helement
    obtain ⟨core, rest, hne, hrereads⟩ := readHeading_again hheading
    dsimp only at hitem
    split at hitem
    · cases hitem
    · rename_i hbrace
      cases hitem
      have hconsumes : c.Consumes (core ++ rest.takeWhile isGap) d := by
        have hgap := (c.past core).skipGaps_consumes
        rw [Cursor.rest_past hrereads.rest_eq, ← hrereads.last] at hgap
        exact (Cursor.past_consumes_of_rest rest hrereads.rest_eq).trans hgap
      have hspan : (heading.node none c d).span =
          ⟨c.offset, String.ofList (core ++ trimEnd (rest.takeWhile isGap))⟩ := by
        rw [Heading.node, hconsumes.upTo_eq, (hrereads.solid hne).trim_append]
        rfl
      have hcontinues := Continues.of_trimEnd rest
      have hkept := trimEnd_prefix (rest.takeWhile isGap)
      generalize trimEnd (rest.takeWhile isGap) = cut at hspan hcontinues hkept
      have hrest : (Cursor.start (core ++ cut)).rest = core ++ cut := rfl
      refine ⟨core ++ cut, ((Cursor.start (core ++ cut)).past core).skipGaps, hspan, ?_, ?_⟩
      · rw [readItem_heading_again false hrereads hne hquote hcomment hrest hcontinues]
        exact readElement_leaf_again hrereads hne hbrace hrest hcontinues (translates_start c _)
      · rw [Cursor.skipGaps_skipGaps, Cursor.skipGaps_rest, Cursor.rest_past hrest]
        refine List.dropWhile_eq_nil_iff.2 fun e he => ?_
        exact blank_takeWhile rest e (hkept.subset he)

theorem leaf_standsAlone {node : Node} (h : readItem inBraces c = .ok (.leaf node, d))
    (hsuper : ∀ call, node ≠ .superCall call) : node.StandsAlone := by
  obtain ⟨text, d', hspan, hread, hend⟩ := readItem_alone h hsuper
  obtain ⟨gap, -, -, -, hne, hflat⟩ := readItem_laid h
  have hlaid : Laid node.span.offset ([] ++ (node.span.text.toList ++ [])) [node] :=
    .flat .nil rfl hne hflat (.nil .nil)
  have hoffset : node.span.offset = c.offset := by rw [hspan]
  have htext : node.span.text = String.ofList text := by rw [hspan]
  have hskip := skipGaps_of_gapless (gapless_of_readItem hread)
  refine standsAlone_of_reads ?_ htext (d := d') ?_ hend
  · simpa [htext] using hlaid
  · rw [hoffset]
    exact .leaf (by rw [hskip]; exact hread) .nil

/-- Outside braces, a heading is read as inside them. -/
theorem readItem_outside {heading : Heading}
    (h : readItem inBraces c = .ok (.opening heading, d)) :
    readItem false c = .ok (.opening heading, d) := by
  obtain ⟨first, hfirst, -⟩ := head_of_readItem h
  obtain ⟨rest, hrest⟩ := Cursor.rest_eq_of_current? hfirst
  rcases readItem_cases h with ⟨_, _, _, _, _, _, hitem⟩ | ⟨_, _, _, hitem⟩ | ⟨_, _, _, hitem⟩ |
    ⟨hquote, hcomment, helement⟩
  · cases hitem
  · cases hitem
  · cases hitem
  · rw [readItem_of_rest false hrest, hquote first hfirst, hcomment]
    exact helement

/-- An element with braces stands alone. -/
theorem braced_standsAlone {heading : Heading} {content : List Node}
    (item : readItem inBraces c = .ok (.opening heading, d)) (inside : Reads true d content e)
    (brace : e.skipGaps.current? = some '\x7d') :
    (heading.node (some content) c (e.skipGaps.past ['\x7d'])).StandsAlone := by
  have hskip := skipGaps_of_gapless (gapless_of_readItem item)
  have hread : Reads inBraces c _ _ := .element (by rw [hskip]; exact item) inside brace .nil
  rw [hskip] at hread
  obtain ⟨text, htext, hlaid⟩ := hread.laid
  obtain ⟨inner, hinner, -⟩ := inside.laid
  have hrest : (Cursor.start text).rest = text ++ [] := by simp [Cursor.start]
  have halone := braced_again (readItem_outside item) hinner inside brace
    (fun h h' h'' => inside.again hinner h h' h'') htext hrest (translates_start c text)
  refine standsAlone_of_reads hlaid ?_ halone ?_
  · obtain ⟨core, gap, hfront, hsolid, -, -⟩ := readItem_laid item
    have hclose := e.skipGaps_consumes.trans (Cursor.past_current_consumes brace)
    have hall : c.Consumes (core ++ gap ++ '\x7b' :: (inner ++ e.rest.takeWhile isGap ++ ['\x7d']))
        (e.skipGaps.past ['\x7d']) := by
      have hbraces := hfront.trans (hinner.trans hclose)
      simpa using hbraces
    cases htext.text_unique hall
    rw [Heading.node, htext.upTo_eq, hsolid.trim_braces]
    rfl
  · rw [Cursor.skipGaps_rest, Cursor.rest_past hrest]
    rfl

/-- All nodes of a document but super calls stand alone, at any depth. -/
theorem Reads.standsAlone (h : Reads inBraces c nodes d) (depth : Nat) :
    ∀ entry ∈ Node.preorderAll depth nodes, (∀ call, entry.2 ≠ .superCall call) →
      entry.2.StandsAlone := by
  induction h generalizing depth with
  | nil => simp [Node.preorderAll]
  | @leaf inBraces c d e node nodes item others ih =>
      intro entry hentry hsuper
      obtain ⟨gap, -, -, -, -, hflat⟩ := readItem_laid item
      rw [preorderAll_flat hflat] at hentry
      rcases List.mem_cons.1 hentry with rfl | hentry
      · exact leaf_standsAlone item hsuper
      · exact ih depth entry hentry hsuper
  | @element inBraces c d e last heading content nodes item inside brace others ihInside ih =>
      intro entry hentry hsuper
      have hbraced := braced_standsAlone item inside brace
      rw [Heading.node] at hentry hbraced
      rw [preorderAll_braced] at hentry
      rcases List.mem_cons.1 hentry with rfl | hentry
      · exact hbraced
      · rcases List.mem_append.1 hentry with hentry | hentry
        · exact ihInside (depth + 1) entry hentry hsuper
        · exact ih depth entry hentry hsuper

end Alone

/-- **Excerpts of a document.**  In every source that can be read, the text of each element,
quoted text and comment, at any depth, can be read alone, and gives this node and no other. -/
theorem parse_standsAlone {source : String} {block : Block} (h : parse source = .ok block) :
    ∀ entry ∈ block.preorder, (∀ call, entry.2 ≠ .superCall call) → entry.2.StandsAlone := by
  obtain ⟨⟨comments, afterComments⟩, hcomments, hread⟩ := bind_eq_ok_iff.1 (readBlock_of_parse h)
  obtain ⟨⟨declaration, afterDeclaration⟩, hdeclaration, hread⟩ := bind_eq_ok_iff.1 hread
  obtain ⟨nodes, hnodes, hread⟩ := bind_eq_ok_iff.1 hread
  cases hread
  obtain ⟨e, hcommentReads, -⟩ := reads_of_readLeadingComments hcomments
  obtain ⟨last, hreads, -⟩ := readContent_eq_ok_iff.1 hnodes
  intro entry hentry hsuper
  rw [Block.preorder, preorderAll_append] at hentry
  rcases List.mem_append.1 hentry with hentry | hentry
  · exact hcommentReads.standsAlone 0 entry hentry hsuper
  · exact hreads.standsAlone 0 entry hentry hsuper

theorem nestedElement_standsAlone :
    ∃ block, parse "#b // c\n@a(k, super!) \x7b /x, \x01\x7b'y' super!\x7d i / \x7d" = .ok block ∧
      block.preorder.map (fun entry => (entry.1, entry.2.span)) =
        [(0, ⟨3, "// c"⟩), (0, ⟨8, "@a(k, super!) \x7b /x, \x01\x7b'y' super!\x7d i / \x7d"⟩),
          (1, ⟨24, "/x, \x01\x7b'y' super!\x7d"⟩), (2, ⟨30, "'y'"⟩), (2, ⟨34, "super!"⟩),
          (1, ⟨42, "i /"⟩)] ∧
      ∀ entry ∈ block.preorder, (∀ call, entry.2 ≠ .superCall call) → entry.2.StandsAlone := by
  have hread : (parse "#b // c\n@a(k, super!) \x7b /x, \x01\x7b'y' super!\x7d i / \x7d").toOption.map
      (fun block => block.preorder.map fun entry => (entry.1, entry.2.span)) =
        some [(0, ⟨3, "// c"⟩), (0, ⟨8, "@a(k, super!) \x7b /x, \x01\x7b'y' super!\x7d i / \x7d"⟩),
          (1, ⟨24, "/x, \x01\x7b'y' super!\x7d"⟩), (2, ⟨30, "'y'"⟩), (2, ⟨34, "super!"⟩),
          (1, ⟨42, "i /"⟩)] := by decide +kernel
  cases hparse : parse "#b // c\n@a(k, super!) \x7b /x, \x01\x7b'y' super!\x7d i / \x7d" with
  | error e => simp [hparse, Except.toOption] at hread
  | ok block =>
      rw [hparse] at hread
      exact ⟨block, rfl, Option.some.inj hread, parse_standsAlone hparse⟩

end BemMarkup.Document

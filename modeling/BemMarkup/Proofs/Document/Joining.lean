import BemMarkup.Proofs.Document.ViablePrefix

/-!
# Joining documents

Two documents cannot be joined by writing one behind the other, nor by a line break between
them: a tag at the end of the first one goes on with a name list on the next line, a name list
with a comma.  An empty line comment on a line of its own separates them, whatever the first one
ends with.

The items of the first document are read again before the comment, since what comes there
continues none of them, and the gap at its end is trimmed together with the line break behind it.
The items of the second one are read again, as far behind as they stand.

## Main results

* `Reads.again_at_end`: content at the end of a source is read again before what starts a line.
* `reads_of_commentLine`: an empty line comment, and the content behind it.
* `parse_joined`: two documents with a comment line between them are one document.
-/

namespace BemMarkup.Document

open Text

/-! ## Content at the end of a source -/

section Ends

variable {c c' d : Cursor} {inBraces : Bool} {nodes : List Node} {rest tail : List Char}
  {f : Nat → Nat}

/-- Behind the gap at the end of a source may come what starts a line and continues no heading. -/
theorem Continues.append_blank (hblank : Blank rest) (hline : tail = [] ∨ StartsWithBreak tail)
    (hgap : trimEnd (tail.takeWhile isGap) = []) (hclosed : Closed (tail.dropWhile isGap)) :
    Continues rest (rest ++ tail) := by
  have hblankTail : Heads (fun e => isGap e = true) tail := by
    rcases hline with rfl | ⟨e, others, rfl, hbreak⟩
    · exact .nil
    · exact .cons (by rcases hbreak with rfl | rfl <;> decide) others
  have hheads : Heads (fun e => isGap e = true) (rest ++ tail) := Heads.append hblank hblankTail
  have hkept : trimEnd (rest ++ tail.takeWhile isGap) = trimEnd (rest ++ []) :=
    trimEnd_append_congr hgap rest
  constructor
  · exact .inl (hheads.mono fun _ => isStop_of_isGap)
  · intro _
    refine startsComment_eq_false (hheads.mono fun e he => ?_)
    constructor <;> rintro rfl <;> exact absurd he (by decide)
  · rintro (rfl | ⟨e, others, rfl, hbreak⟩)
    · exact hline
    · exact .inr ⟨e, others ++ tail, rfl, hbreak⟩
  · rw [takeWhile_append_of_blank hblank, hkept, List.append_nil,
      List.takeWhile_eq_self_iff.2 hblank]
  · rw [dropWhile_of_blank hblank]
    exact .inl hclosed

theorem blank_of_end (h : d.skipGaps.rest = []) : Blank d.rest := by
  rw [Cursor.skipGaps_rest] at h
  exact List.dropWhile_eq_nil_iff.1 h

/-- Content up to the end of a source is read again, with all of the source before what comes
behind it. -/
theorem Reads.again_at_end (h : Reads inBraces c nodes d) (hend : d.skipGaps.rest = [])
    (hrest : c'.rest = c.rest ++ tail)
    (hcontinues : Blank d.rest → Continues d.rest (d.rest ++ tail)) (hf : Translates f c c') :
    ∃ d', Reads inBraces c' (Node.movedAll f nodes) d' ∧
      d'.skipGaps = (c'.past c.rest).skipGaps := by
  have hblank := blank_of_end hend
  obtain ⟨text, htext, -⟩ := h.laid
  have hall : c'.rest = text ++ (d.rest ++ tail) := by
    rw [hrest, htext.rest_eq, List.append_assoc]
  obtain ⟨d', hagain, hskip⟩ := h.again htext hall (hcontinues hblank) hf
  refine ⟨d', hagain, ?_⟩
  rw [hskip, skipGaps_of_blank hblank (Cursor.rest_past hall), Cursor.past_past,
    ← htext.rest_eq]

end Ends

/-! ## Longer sources -/

/-- The same place in a source that goes on with another text. -/
def Cursor.extend (c : Cursor) (tail : List Char) : Cursor := ⟨c.offset, c.rest ++ tail⟩

section Extend

variable {c d m : Cursor} {text tail : List Char} {nodes : List Node}

theorem Cursor.Consumes.extend (h : c.Consumes text d) (tail : List Char) :
    (c.extend tail).Consumes text (d.extend tail) :=
  ⟨by simp [Cursor.extend, h.rest_eq], h.offset_eq⟩

/-- However far a source has been read, it ends at the same place. -/
theorem Cursor.Consumes.end_eq (h : c.Consumes text d) :
    d.offset + byteLength d.rest = c.offset + byteLength c.rest := by
  rw [h.offset_eq, h.rest_eq, byteLength_append, Nat.add_assoc]

theorem translates_extend (c : Cursor) (tail : List Char) :
    Translates id c (c.extend tail) := fun _ => rfl

theorem Node.movedAll_id (nodes : List Node) : Node.movedAll id nodes = nodes := by
  induction nodes using Node.inductAll with
  | nil => rfl
  | element e nodes ihChildren ih =>
      obtain ⟨⟨isHelper, tag, names, attributes⟩, content, span⟩ := e
      have hheading : Heading.moved id ⟨isHelper, tag, names, attributes⟩ =
          ⟨isHelper, tag, names, attributes⟩ := by
        rcases attributes with _ | ⟨_ | call, entries, group⟩ <;> rfl
      cases content with
      | none => rw [Node.movedAll, ih, Node.moved, hheading]; rfl
      | some children =>
          have hchildren : Node.movedAll id children = children := ihChildren
          rw [Node.movedAll, ih, Node.moved, hheading, hchildren]
          rfl
  | literal l nodes ih | comment l nodes ih | superCall call nodes ih =>
      rw [Node.movedAll, ih]
      rfl

/-- The comments before a declaration are there in a longer source. -/
theorem readLeadingComments_extend (h : readLeadingComments c = .ok (nodes, m))
    (hhash : m.current? = some '#') (tail : List Char) :
    readLeadingComments (c.extend tail) = .ok (nodes, m.extend tail) := by
  obtain ⟨e, hreads, rfl⟩ := reads_of_readLeadingComments h
  obtain ⟨text, htext, -⟩ := hreads.laid
  obtain ⟨name, hname⟩ := Cursor.rest_eq_of_current? hhash
  have hgap := e.skipGaps_consumes
  have hblank := blank_takeWhile e.rest
  generalize e.rest.takeWhile isGap = gap at hgap hblank
  have hcontinues : Continues e.rest (e.rest ++ tail) := by
    rw [hgap.rest_eq, hname, List.append_assoc, List.cons_append]
    exact .of_mark hblank (by decide) (by decide) (by decide) _ _
  obtain ⟨e', hagain, hskip⟩ :=
    hreads.again htext (htext.extend tail).rest_eq hcontinues (translates_extend c tail)
  have hat : (e.extend tail).rest = gap ++ '#' :: (name ++ tail) := by
    rw [(hgap.extend tail).rest_eq, Cursor.extend, hname, List.cons_append]
  rw [← (htext.extend tail).eq_past, skipGaps_eq hblank hat (.cons (by decide) _),
    ← (hgap.extend tail).eq_past] at hskip
  rw [Node.movedAll_id] at hagain
  have hstart : startsComment e'.skipGaps.rest = false := by
    rw [hskip, Cursor.extend, hname]
    rfl
  rw [readLeadingComments_of_comments hagain (exists_comment_of_readLeadingComments h) hstart,
    hskip]

/-- A declaration is there in a longer source, if its name ends where it did. -/
theorem readDeclaration_extend {declaration : Declaration}
    (h : readDeclaration c = .ok (some declaration, d)) (hstops : Stops (d.rest ++ tail)) :
    readDeclaration (c.extend tail) = .ok (some declaration, d.extend tail) := by
  unfold readDeclaration at h
  split at h
  · rename_i hhash
    dsimp only at h
    split at h
    · cases h
    · rename_i hne
      cases h
      have hmark := Cursor.past_current_consumes hhash
      have hlexeme := Cursor.past_consumes (NameClass.lexeme_prefix .block (c.past ['#']).rest)
      have hname := NameClass.lexeme_isName (mt List.isEmpty_iff.2 hne)
      generalize NameClass.block.lexeme (c.past ['#']).rest = name at *
      have hat := (hmark.extend tail).eq_past
      have hlast := (hlexeme.extend tail).eq_past
      have hhash' : (c.extend tail).current? = some '#' :=
        Cursor.current?_of_rest_eq (hmark.extend tail).rest_eq
      have hagain : NameClass.block.lexeme ((c.past ['#']).extend tail).rest = name := by
        rw [(hlexeme.extend tail).rest_eq]
        exact lexeme_append hname (heads_of_stops hstops)
      have hspan : (c.extend tail).spanTo (((c.past ['#']).past name).extend tail) =
          c.spanTo ((c.past ['#']).past name) :=
        ((hmark.trans hlexeme).extend tail).spanTo_eq.trans (hmark.trans hlexeme).spanTo_eq.symm
      rw [readDeclaration, if_pos hhash', ← hat]
      simp only [hagain, ← hlast, hspan, if_neg hne]
  · cases h

end Extend

/-! ## The comment line -/

/-- What separates two documents: a line that is an empty comment. -/
def commentLine : List Char := ['\n', '/', '/', '\n']

/-- An empty line comment. -/
def emptyComment (offset : Nat) : Node := .comment ⟨"", false, ⟨offset, "//"⟩⟩

section CommentLine

variable {c d e : Cursor} {nodes others : List Node} {source rest : List Char}

theorem Continues.commentLine (hblank : Blank rest) (behind : List Char) :
    Continues rest (rest ++ (commentLine ++ behind)) :=
  .append_blank hblank (.inr ⟨'\n', _, rfl, .inr rfl⟩) rfl (.inl rfl)

/-- An empty line comment, and a source behind it. -/
theorem reads_of_commentLine (h : Reads false (.start source) nodes d)
    (hend : d.skipGaps.rest = []) (hrest : c.rest = ['/', '/'] ++ ('\n' :: source)) :
    ∃ last,
      Reads false c (emptyComment c.offset :: Node.movedAll (· + (c.offset + 3)) nodes) last ∧
        last.skipGaps.rest = [] := by
  let token : CommentToken := ⟨[], false⟩
  have hread : readComment c = .ok (token, c.past token.lexeme) :=
    readComment_eq (by simp [CommentToken.IsValid, token])
      (fun _ => .inr ⟨'\n', source, rfl, .inr rfl⟩) hrest
  have hconsumes : c.Consumes token.lexeme (c.past token.lexeme) :=
    Cursor.past_consumes_of_rest _ hrest
  have hnode : token.node c (c.past token.lexeme) = emptyComment c.offset := by
    rw [CommentToken.node, hconsumes.spanTo_eq]
    rfl
  have hitem : readItem false c.skipGaps =
      .ok (.leaf (emptyComment c.offset), c.past token.lexeme) := by
    rw [skipGaps_of_gapless (by rw [hrest]; exact .cons (by decide) _),
      readItem_comment false (by rw [hrest]; rfl), hread, ← hnode]
    rfl
  have hat : (c.past token.lexeme).rest = ['\n'] ++ source := Cursor.rest_past hrest
  have hbehind : ((c.past token.lexeme).past ['\n']).rest = source ++ [] := by
    rw [Cursor.rest_past hat, List.append_nil]
  have hf : Translates (· + (c.offset + 3)) (.start source)
      ((c.past token.lexeme).past ['\n']) := by
    intro n
    have hlength : byteLength token.lexeme + byteLength ['\n'] = 3 := by decide
    simp only [Cursor.start, Cursor.past_offset]
    omega
  obtain ⟨last, hagain, hskip⟩ := h.again_at_end hend hbehind
    (fun hblank => .append_blank hblank (.inl rfl) rfl .nil) hf
  obtain ⟨last', hagain', hskip'⟩ :=
    hagain.of_skipGaps_eq (skipGaps_of_blank (.singleton (by decide)) hat)
  refine ⟨last', .leaf hitem hagain', ?_⟩
  have hnone : (((c.past token.lexeme).past ['\n']).past (Cursor.start source).rest).rest = [] :=
    Cursor.rest_past hbehind
  rw [hskip', hskip, Cursor.skipGaps_rest, hnone]
  rfl

/-- Content up to the end of a source goes on alike before a comment line. -/
theorem Reads.continues_commentLine (h : Reads false c nodes d) (hend : d.skipGaps.rest = [])
    (behind : List Char) : Continues c.rest (c.rest ++ (commentLine ++ behind)) := by
  obtain ⟨text, htext, -⟩ := h.laid
  have hall := h.continues htext (.commentLine (blank_of_end hend) behind)
  rwa [← List.append_assoc, ← htext.rest_eq] at hall

/-- Content up to the end of a source, a comment line and another source. -/
theorem Reads.joined (h : Reads false c nodes d) (hend : d.skipGaps.rest = [])
    (h' : Reads false (.start source) others e) (hend' : e.skipGaps.rest = []) :
    ∃ last, Reads false (c.extend (commentLine ++ source))
      (nodes ++ emptyComment (c.offset + byteLength c.rest + 1) ::
        Node.movedAll (· + (c.offset + byteLength c.rest + 4)) others) last ∧
      last.skipGaps.rest = [] := by
  obtain ⟨d', hfirst, hskip⟩ := h.again_at_end hend rfl
    (fun hblank => .commentLine hblank source) (translates_extend c _)
  rw [Node.movedAll_id] at hfirst
  have hrest : (c.extend (commentLine ++ source)).rest =
      c.rest ++ (['\n'] ++ (['/', '/'] ++ '\n' :: source)) := rfl
  have hat := Cursor.rest_past hrest
  have hline := skipGaps_eq (.singleton (by decide)) hat (.cons (by decide) _)
  obtain ⟨last, hsecond, hlast⟩ := reads_of_commentLine h' hend' (Cursor.rest_past hat)
  have hgapless : Gapless (((c.extend (commentLine ++ source)).past c.rest).past ['\n']).rest := by
    rw [Cursor.rest_past hat]
    exact .cons (by decide) _
  obtain ⟨last', hsecond', hskip'⟩ := hsecond.of_skipGaps_eq (d := d')
    (by rw [hskip, hline, skipGaps_of_gapless hgapless])
  refine ⟨last', ?_, by rw [hskip', hlast]⟩
  exact hfirst.append hsecond'

end CommentLine

/-! ## Two documents -/

section Documents

variable {source : String} {block : Block}

/-- Where no declaration is read, the comments at the start are content like any other. -/
theorem Reads.with_comments {c m d e : Cursor} {comments nodes : List Node}
    (hcomments : readLeadingComments c = .ok (comments, m))
    (hdeclaration : readDeclaration m = .ok (none, d)) (h : Reads false d nodes e) :
    ∃ last, Reads false c (comments ++ nodes) last ∧ last.skipGaps = e.skipGaps := by
  obtain ⟨f, hleading, rfl⟩ := reads_of_readLeadingComments hcomments
  obtain rfl : d = f.skipGaps := by
    unfold readDeclaration at hdeclaration
    dsimp only at hdeclaration
    split at hdeclaration
    · split at hdeclaration <;> cases hdeclaration
    · cases hdeclaration
      rfl
  obtain ⟨last, hnodes, hlast⟩ := h.of_skipGaps_eq f.skipGaps_skipGaps.symm
  exact ⟨last, hleading.append hnodes, hlast⟩

/-- **Joining documents.**  Any two documents, the second one of which declares no name, are one
document with an empty line comment on a line between them: the first one, the comment, and the
nodes of the second one as far behind as they stand. -/
theorem parse_joined {first second : String} {block block' : Block}
    (h : parse first = .ok block) (h' : parse second = .ok block')
    (hname : block'.declaration = none) :
    parse (first ++ "\n//\n" ++ second) =
      .ok ⟨block.declaration, block.name,
        block.content ++ emptyComment (first.utf8ByteSize + 1) ::
          Node.movedAll (· + (first.utf8ByteSize + 4)) block'.content,
        0, first ++ "\n//\n" ++ second⟩ := by
  obtain ⟨comments, m, declaration, d, nodes, e, hcomments, hdeclaration, hreads, hend, rfl⟩ :=
    parts_of_parse h
  obtain ⟨comments', m', _, d', nodes', e', hcomments', hdeclaration', hreads', hend', rfl⟩ :=
    parts_of_parse h'
  cases hname
  obtain ⟨last, hothers, hlast⟩ := hreads'.with_comments hcomments' hdeclaration'
  rw [← hlast] at hend'
  have hsource : Cursor.start (first ++ "\n//\n" ++ second).toList =
      (Cursor.start first.toList).extend (commentLine ++ second.toList) := by
    simp [Cursor.start, Cursor.extend, commentLine]
  have hsize : first.utf8ByteSize = byteLength first.toList := by
    rw [← utf8ByteSize_ofList, String.ofList_toList]
  rw [hsize]
  cases declaration with
  | none =>
      obtain ⟨f, hall, hf⟩ := hreads.with_comments hcomments hdeclaration
      obtain ⟨g, hjoined, hg⟩ := hall.joined (by rw [hf, hend]) hothers hend'
      rw [← hsource] at hjoined
      simp only [Cursor.start, Nat.zero_add] at hjoined
      exact parse_of_reads hjoined hg
  | some declared =>
      obtain ⟨hnone, -⟩ | ⟨name, -, hbound, hconsumes⟩ := readDeclaration_cases hdeclaration
      · cases hnone
      obtain ⟨front, hfront, -⟩ := comments_again hcomments
      have hhash : m.current? = some '#' := Cursor.current?_of_rest_eq hconsumes.rest_eq
      have hstops := (hreads.continues_commentLine hend second.toList).stops_of_name hbound
      obtain ⟨g, hjoined, hg⟩ := hreads.joined hend hothers hend'
      rw [(hfront.trans hconsumes).end_eq] at hjoined
      have hparsed := parse_of_parts (hsource ▸ readLeadingComments_extend hcomments hhash _)
        (readDeclaration_extend hdeclaration hstops) (readContent_eq_ok_iff.2 ⟨g, hjoined, hg⟩)
      simpa [Cursor.start] using hparsed

/-- A name list that ends in a comma, and a document that starts with a name list. -/
theorem openNameList_is_joined :
    ∃ block block', parse "#b ul/a," = .ok block ∧ parse "/c li" = .ok block' ∧
      block'.declaration = none ∧
      block.preorder.map (fun entry => entry.2.span) = [⟨3, "ul/a,"⟩] ∧
      block'.preorder.map (fun entry => entry.2.span) = [⟨0, "/c"⟩, ⟨3, "li"⟩] ∧
      parse ("#b ul/a," ++ "\n//\n" ++ "/c li") =
        .ok ⟨block.declaration, block.name,
          block.content ++ emptyComment ("#b ul/a,".utf8ByteSize + 1) ::
            Node.movedAll (· + ("#b ul/a,".utf8ByteSize + 4)) block'.content,
          0, "#b ul/a," ++ "\n//\n" ++ "/c li"⟩ := by
  have hread : (parse "#b ul/a,").toOption.map
      (fun block => block.preorder.map fun entry => entry.2.span) = some [⟨3, "ul/a,"⟩] := by
    decide +kernel
  have hread' : (parse "/c li").toOption.map
      (fun block => (block.declaration, block.preorder.map fun entry => entry.2.span)) =
        some (none, [⟨0, "/c"⟩, ⟨3, "li"⟩]) := by
    decide +kernel
  cases hparse : parse "#b ul/a," with
  | error e => simp [hparse, Except.toOption] at hread
  | ok block =>
      cases hparse' : parse "/c li" with
      | error e => simp [hparse', Except.toOption] at hread'
      | ok block' =>
          rw [hparse] at hread
          rw [hparse'] at hread'
          obtain ⟨hname, hspans⟩ := Prod.mk.inj (Option.some.inj hread')
          exact ⟨block, block', rfl, rfl, hname, Option.some.inj hread, hspans,
            parse_joined hparse hparse' hname⟩

end Documents

end BemMarkup.Document

import BemMarkup.Proofs.Document.Headings
import BemMarkup.Proofs.Document.Reading

/-!
# Parsing undoes printing

Whatever layout a draft is written down in, parsing gives the draft back.  The induction is
on how the content is written, and it goes along with the content as it is read: an item is
read as such because of its first character, and it ends where it is written to end because
of the first character of what comes behind it.

For both it is enough to know how the next item starts.  `Draft.StartsText` collects that.

## Main results

* `readItem_printed`: an item without braces is read as it is written.
* `reads_of_prints`: content is read as it is written.
* `parse_of_prints`: a document is parsed as it is written.
-/

namespace BemMarkup.Document

open Text

/-! ## The starts of items -/

/-- How a text starts that starts with an item. -/
structure Draft.StartsText (item : Draft) (text : List Char) : Prop where
  head : ∃ d tail, text = d :: tail ∧ isGap d = false ∧ d ∉ [',', '(', '\x7b', '\x7d', '#']
  slash : text.head? = some '/' → startsComment text = true ∨ item.StartsWithNames
  letter : ∀ d, text.head? = some d → isLetterOrUnderscore d = true → item.StartsWithName

section Starts

variable {rest : List Char}

theorem not_mem_of_isNameChar {d : Char} (h : isNameChar d = true) :
    d ∉ [',', '(', '\x7b', '\x7d', '#'] := by
  simp only [List.mem_cons, List.not_mem_nil, or_false]
  rintro (rfl | rfl | rfl | rfl | rfl) <;> exact absurd h (by decide)

theorem startsText_heading {heading : HeadingDraft} {text : List Char}
    (content : Option (List Draft)) (h : heading.Prints text) (hrest : EndsPart rest) :
    (Draft.element heading content).StartsText (text ++ rest) := by
  rcases h.start hrest with
    ⟨hmark, tail, rfl⟩ | ⟨hmark, htag, tail, htext, -⟩ |
      ⟨hmark, tag, tail, htag, hname, htext, -⟩
  · refine ⟨⟨'@', tail ++ rest, rfl, by decide⟩, fun hslash => ?_, fun d hd hletter => ?_⟩
    · cases hslash
    · cases hd
      exact absurd hletter (by decide)
  · rw [htext]
    refine ⟨⟨'/', tail, rfl, by decide⟩, fun _ => .inr ⟨hmark, htag⟩, fun d hd hletter => ?_⟩
    cases hd
    exact absurd hletter (by decide)
  · obtain ⟨d, others, rfl, hd⟩ := head_of_isName hname
    have hchar := isNameChar_of_isStart hd
    rw [htext]
    refine ⟨⟨d, others ++ tail, rfl, isGap_of_isNameChar hchar, not_mem_of_isNameChar hchar⟩,
      fun hslash => ?_, fun _ _ _ => ⟨hmark, by simp [htag]⟩⟩
    cases hslash
    exact absurd hd (by decide)

theorem startsText_flat {inBraces : Bool} {item : Draft} {text : List Char}
    (h : item.PrintsFlat inBraces text)
    (hrest : ∀ heading, item = .element heading none → EndsPart rest) :
    item.StartsText (text ++ rest) := by
  cases h with
  | literal valid =>
      rw [QuotedToken.lexeme, List.cons_append]
      rcases valid.quote with hquote | hquote | hquote <;> rw [hquote] <;>
        exact ⟨⟨_, _, rfl, by decide⟩, by simp, fun d hd hletter => by
          cases hd
          exact absurd hletter (by decide)⟩
  | @comment _ token valid =>
      refine ⟨?_, fun _ => .inl (startsComment_lexeme_append token rest), ?_⟩
      · unfold CommentToken.lexeme
        split <;> exact ⟨'/', _, rfl, by decide⟩
      · intro d hd hletter
        unfold CommentToken.lexeme at hd
        split at hd <;> cases hd <;> exact absurd hletter (by decide)
  | @superCall token valid =>
      obtain ⟨c, cs, htoken, -⟩ := token.lexeme_start
      rw [htoken]
      refine ⟨⟨'s', _, rfl, by decide⟩, fun hslash => ?_, fun _ _ _ => trivial⟩
      cases hslash
  | @element _ heading _ printed => exact startsText_heading none printed (hrest heading rfl)

theorem Draft.StartsText.gapless {item : Draft} {text : List Char} (h : item.StartsText text) :
    Gapless text := by
  obtain ⟨d, tail, rfl, hd, -⟩ := h.head
  exact .cons hd tail

theorem Draft.StartsText.head_ne {item : Draft} {text : List Char} (h : item.StartsText text)
    {d : Char} (hd : d ∈ [',', '(', '\x7b', '\x7d', '#']) : text.head? ≠ some d := by
  obtain ⟨e, tail, rfl, -, he⟩ := h.head
  intro heq
  cases heq
  exact he hd

/-! ## What comes behind content -/

/-- What comes behind content: the end of the source, a closing brace or a declaration. -/
def Closes (atEnd : Bool) (after : List Char) : Prop :=
  if atEnd then after = [] else ∃ d tail, after = d :: tail ∧ (d = '\x7d' ∨ d = '#')

theorem Closes.heads {atEnd : Bool} {after : List Char} (h : Closes atEnd after) :
    Heads (fun d => d = '\x7d' ∨ d = '#') after := by
  unfold Closes at h
  split at h
  · subst h
    exact .nil
  · obtain ⟨d, tail, rfl, hd⟩ := h
    exact .cons hd tail

theorem Closes.gapless {atEnd : Bool} {after : List Char} (h : Closes atEnd after) :
    Gapless after := by
  refine h.heads.mono fun d hd => ?_
  rcases hd with rfl | rfl <;> decide

variable {inBraces atEnd : Bool} {items : List Draft} {after : List Char}

theorem endsPart_of_prints (h : Prints inBraces atEnd items rest) (hafter : Closes atEnd after)
    (hgap : items ≠ [] → StartsWithGap rest) : EndsPart (rest ++ after) := by
  cases items with
  | nil =>
      cases h with
      | nil blank =>
          refine Heads.append (fun d hd => .inl (blank d hd)) (hafter.heads.mono fun d hd => ?_)
          rcases hd with rfl | rfl <;> simp
  | cons item items =>
      obtain ⟨d, tail, rfl, hd⟩ := hgap (by simp)
      exact .cons (.inl hd) _

theorem endsPart_brace {gap : List Char} (hgap : Blank gap) (tail : List Char) :
    EndsPart (gap ++ '\x7b' :: tail) :=
  Heads.append (fun d hd => .inl (hgap d hd)) (.cons (by simp) tail)

/-- Behind a gap, content starts with its first item, or there is none left. -/
theorem start_of_prints (h : Prints inBraces atEnd items rest) (hafter : Closes atEnd after) :
    (items = [] ∧ (rest ++ after).dropWhile isGap = after) ∨
      ∃ item others, items = item :: others ∧
        item.StartsText ((rest ++ after).dropWhile isGap) := by
  cases h with
  | nil blank =>
      refine .inl ⟨rfl, ?_⟩
      rw [dropWhile_of_blank blank, dropWhile_of_gapless hafter.gapless]
  | @flat _ _ item items gap text rest blank printed separated others =>
      have hstarts : item.StartsText (text ++ (rest ++ after)) :=
        startsText_flat printed fun _ _ => endsPart_of_prints others hafter separated.gap
      refine .inr ⟨item, items, rfl, ?_⟩
      rw [List.append_assoc, List.append_assoc, dropWhile_of_blank blank,
        dropWhile_of_gapless hstarts.gapless]
      exact hstarts
  | @braced _ _ heading content items gap text gap' inner rest blank printed blank' inside _ _ =>
      have hstarts := startsText_heading (some content) printed
        (endsPart_brace blank' (inner ++ '\x7d' :: (rest ++ after)))
      refine .inr ⟨_, items, rfl, ?_⟩
      have htext : gap ++ (text ++ (gap' ++ '\x7b' :: (inner ++ '\x7d' :: rest))) ++ after =
          gap ++ (text ++ (gap' ++ '\x7b' :: (inner ++ '\x7d' :: (rest ++ after)))) := by simp
      rw [htext, dropWhile_of_blank blank, dropWhile_of_gapless hstarts.gapless]
      exact hstarts

/-- Behind a line comment there is the end of its line or of the source. -/
theorem Draft.SeparatedFrom.line_append {item : Draft}
    (h : item.SeparatedFrom atEnd items rest) (hafter : Closes atEnd after)
    (hcomment : item.IsLineComment) : rest ++ after = [] ∨ StartsWithBreak (rest ++ after) := by
  rcases h.line hcomment with ⟨d, tail, rfl, hd⟩ | ⟨rfl, rfl⟩
  · exact .inr ⟨d, tail ++ after, rfl, hd⟩
  · exact .inl (by simpa [Closes] using hafter)

/-- A heading without braces is not continued by the content behind it. -/
theorem endsBefore_of_prints {heading : HeadingDraft} (h : Prints inBraces atEnd items rest)
    (hafter : Closes atEnd after)
    (hseparated : (Draft.element heading none).SeparatedFrom atEnd items rest) :
    heading.EndsBefore (rest ++ after) := by
  have hpart := endsPart_of_prints h hafter hseparated.gap
  rcases start_of_prints h hafter with ⟨-, hdrop⟩ | ⟨item, others, rfl, hstarts⟩
  · have hheads := hafter.heads
    rw [← hdrop] at hheads
    have hne : ∀ d, d ≠ '\x7d' → d ≠ '#' → ((rest ++ after).dropWhile isGap).head? ≠ some d := by
      intro d hbrace hhash hd
      rcases hheads d hd with rfl | rfl
      · exact hbrace rfl
      · exact hhash rfl
    refine ⟨hpart, hne ',' (by decide) (by decide), fun _ => hne '(' (by decide) (by decide),
      fun _ hslash => absurd hslash (hne '/' (by decide) (by decide)), fun _ => ?_⟩
    refine hheads.mono fun d hd => ?_
    rcases hd with rfl | rfl <;> decide
  · obtain ⟨hnames, hname⟩ := hseparated.next item rfl
    refine ⟨hpart, hstarts.head_ne (by simp), fun _ => hstarts.head_ne (by simp), fun htag hslash =>
      (hstarts.slash hslash).resolve_right (hnames htag), fun hslot d hd => ?_⟩
    cases hletter : isLetterOrUnderscore d with
    | false => exact hletter
    | true => exact absurd (hstarts.letter d hd hletter) (hname hslot)

/-- A heading is not continued by an opening brace. -/
theorem endsBefore_brace (heading : HeadingDraft) {gap : List Char} (hgap : Blank gap)
    (tail : List Char) : heading.EndsBefore (gap ++ '\x7b' :: tail) := by
  have hdrop : (gap ++ '\x7b' :: tail).dropWhile isGap = '\x7b' :: tail := by
    rw [dropWhile_of_blank hgap]
    exact dropWhile_of_gapless (.cons (by decide) tail)
  refine ⟨endsPart_brace hgap tail, ?_, fun _ => ?_, fun _ hslash => ?_, fun _ => ?_⟩
  · simp [hdrop]
  · simp [hdrop]
  · simp [hdrop] at hslash
  · rw [hdrop]
    exact .cons (by decide) tail

end Starts

/-! ## Items -/

section Items

variable {c : Cursor} {rest : List Char}

/-- What starts with a heading is read as an element. -/
theorem readItem_heading {heading : HeadingDraft} {text : List Char} (inBraces : Bool)
    (h : heading.Prints text) (hpart : EndsPart rest) (hrest : c.rest = text ++ rest) :
    readItem inBraces c = readElement c := by
  rcases h.start hpart with
    ⟨hmark, tail, rfl⟩ | ⟨hmark, htag, tail, htext, hcomment⟩ |
      ⟨hmark, tag, tail, htag, hname, htext, hstops⟩
  · refine readItem_element inBraces hrest (by decide) ?_ ?_
    · rw [hrest]
      rfl
    · rw [hrest]
      exact read?_eq_none_of_ne _ (by decide)
  · rw [htext] at hrest
    refine readItem_element inBraces hrest (by decide) ?_ ?_
    · rw [hrest]
      exact hcomment
    · rw [hrest]
      exact read?_eq_none_of_ne _ (by decide)
  · have hread := read?_name_append hname hstops
    rw [← htext, ← hrest] at hread
    obtain ⟨d, others, rfl, hd⟩ := head_of_isName hname
    rw [htext] at hrest
    refine readItem_element inBraces hrest ?_ ?_ hread
    · cases hquote : isQuote d with
      | false => rfl
      | true =>
          simp only [isQuote, Bool.or_eq_true, beq_iff_eq] at hquote
          rcases hquote with (rfl | rfl) | rfl <;> exact absurd hd (by decide)
    · rw [hrest]
      refine startsComment_eq_false_of_ne _ ?_
      rintro rfl
      exact absurd hd (by decide)

theorem bare_node (heading : Heading) (content : Option (List Node)) (c d : Cursor) :
    (heading.node content c d).bare =
      .element ⟨heading.bare, content.map Node.bareAll, .blank⟩ := by
  cases content <;> rw [Heading.node, Node.bare] <;> rfl

/-- An item without braces is read as it is written, an element with the gap behind it. -/
theorem readItem_printed {inBraces : Bool} {item : Draft} {text : List Char}
    (h : item.PrintsFlat inBraces text)
    (hline : item.IsLineComment → rest = [] ∨ StartsWithBreak rest)
    (hends : ∀ heading, item = .element heading none →
      heading.EndsBefore rest ∧ (rest.dropWhile isGap).head? ≠ some '\x7b')
    (hrest : c.rest = text ++ rest) :
    ∃ node d, readItem inBraces c = .ok (.leaf node, d) ∧
      d.skipGaps = (c.past text).skipGaps ∧ node.bare = item.node := by
  cases h with
  | @literal _ token valid =>
      have hcons : c.rest = token.quote :: (token.body ++ [token.quote] ++ rest) := by
        simpa [QuotedToken.lexeme] using hrest
      refine ⟨token.node c (c.past token.lexeme), c.past token.lexeme, ?_, rfl, ?_⟩
      · rw [readItem_quoted inBraces hcons valid.isQuote, readQuoted_eq valid hrest]
        rfl
      · rw [QuotedToken.node, Node.bare, Draft.node, ← token.value_eq_meaning]
        rfl
  | @comment _ token valid =>
      have hstart : startsComment c.rest = true := by
        rw [hrest]
        exact startsComment_lexeme_append token rest
      refine ⟨token.node c (c.past token.lexeme), c.past token.lexeme, ?_, rfl, ?_⟩
      · rw [readItem_comment inBraces hstart, readComment_eq valid hline hrest]
        rfl
      · rw [CommentToken.node, Node.bare, Draft.node]
  | @superCall token valid =>
      refine ⟨.superCall ⟨token.target.map String.ofList, c.spanTo (c.past token.lexeme)⟩,
        c.past token.lexeme, readItem_superCall (readSuperCall?_printed valid hrest), rfl, ?_⟩
      rw [Node.bare, Draft.node]
      rfl
  | @element _ heading _ printed =>
      obtain ⟨hbefore, hbrace⟩ := hends heading rfl
      obtain ⟨read, hread, hbare⟩ := readHeading_printed printed hbefore hrest
      have hcurrent : ¬ (c.past text).skipGaps.current? = some '\x7b' := by
        rw [Cursor.current?, Cursor.skipGaps_rest, Cursor.rest_past hrest]
        exact hbrace
      refine ⟨read.node none c (c.past text).skipGaps, (c.past text).skipGaps, ?_,
        Cursor.skipGaps_skipGaps _, ?_⟩
      · rw [readItem_heading inBraces printed hbefore.part hrest, readElement, hread]
        simp only [Except.map, if_neg hcurrent]
      · rw [bare_node, hbare, Draft.node]
        rfl

/-- An element with braces is read up to its opening brace. -/
theorem readItem_opening (inBraces : Bool) {heading : HeadingDraft} {text gap : List Char}
    (h : heading.Prints text) (hgap : Blank gap)
    (hrest : c.rest = text ++ (gap ++ (['\x7b'] ++ rest))) :
    ∃ read, readItem inBraces c =
        .ok (.opening read, c.past (text ++ (gap ++ ['\x7b']))) ∧
      read.bare = heading.heading := by
  obtain ⟨read, hread, hbare⟩ := readHeading_printed h (endsBefore_brace heading hgap rest) hrest
  have hafter := Cursor.rest_past hrest
  have hskip := skipGaps_eq hgap hafter (Heads.cons (by decide) _)
  have hcurrent : ((c.past text).past gap).current? = some '\x7b' := by
    rw [Cursor.current?, Cursor.rest_past hafter]
    rfl
  refine ⟨read, ?_, hbare⟩
  rw [readItem_heading inBraces h (endsPart_brace hgap rest) hrest, readElement, hread, hskip]
  simp only [Except.map, if_pos hcurrent]
  simp only [Cursor.past_past, List.append_assoc]

end Items

/-! ## Content -/

/-- An element without braces has no opening brace behind it. -/
theorem head_ne_brace_of_prints {inBraces atEnd : Bool} {items : List Draft}
    {rest after : List Char} (h : Prints inBraces atEnd items rest) (hafter : Closes atEnd after) :
    ((rest ++ after).dropWhile isGap).head? ≠ some '\x7b' := by
  rcases start_of_prints h hafter with ⟨-, hdrop⟩ | ⟨item, others, -, hstarts⟩
  · rw [hdrop]
    intro hbrace
    rcases hafter.heads _ hbrace with hd | hd <;> cases hd
  · exact hstarts.head_ne (by simp)

/-- Content is read as it is written. -/
theorem reads_of_prints {inBraces atEnd : Bool} {items : List Draft} {text : List Char}
    (h : Prints inBraces atEnd items text) :
    ∀ {after : List Char} {c : Cursor}, Closes atEnd after → c.rest = text ++ after →
      ∃ nodes d, Reads inBraces c nodes d ∧ d.skipGaps = c.past text ∧
        Node.bareAll nodes = Draft.nodes items := by
  induction h with
  | nil blank =>
      intro after c hafter hrest
      exact ⟨[], c, .nil, skipGaps_eq blank hrest hafter.gapless, by rw [Node.bareAll, Draft.nodes]⟩
  | @flat inBraces atEnd item items gap text rest blank printed separated others ih =>
      intro after c hafter hrest
      have hall : c.rest = gap ++ (text ++ (rest ++ after)) := by simp [hrest]
      have hstarts : item.StartsText (text ++ (rest ++ after)) :=
        startsText_flat printed fun _ _ => endsPart_of_prints others hafter separated.gap
      have hskip := skipGaps_eq blank hall hstarts.gapless
      have hat := Cursor.rest_past hall
      have hends : ∀ heading, item = .element heading none →
          heading.EndsBefore (rest ++ after) ∧
            ((rest ++ after).dropWhile isGap).head? ≠ some '\x7b' := by
        rintro heading rfl
        exact ⟨endsBefore_of_prints others hafter separated,
          head_ne_brace_of_prints others hafter⟩
      obtain ⟨node, d, hread, hnext, hbare⟩ := readItem_printed printed (separated.line_append hafter) hends hat
      obtain ⟨nodes, e, hreads, hlast, hbares⟩ := ih hafter (Cursor.rest_past hat)
      obtain ⟨f, hothers, hf⟩ := hreads.of_skipGaps_eq hnext
      refine ⟨node :: nodes, f, .leaf (by rw [hskip]; exact hread) hothers, ?_, ?_⟩
      · rw [hf, hlast]
        simp [Cursor.past_past]
      · rw [Node.bareAll, Draft.nodes, hbare, hbares]
  | @braced inBraces atEnd heading content items gap text gap' inner rest blank printed blank'
      inside separated others ihInside ih =>
      intro after c hafter hrest
      have hall : c.rest = gap ++ (text ++ (gap' ++ (['\x7b'] ++
          (inner ++ (['\x7d'] ++ (rest ++ after)))))) := by simp [hrest]
      have hstarts := startsText_heading (some content) printed
        (endsPart_brace blank' (inner ++ (['\x7d'] ++ (rest ++ after))))
      have hskip := skipGaps_eq blank hall hstarts.gapless
      have hat := Cursor.rest_past hall
      obtain ⟨read, hread, hbare⟩ := readItem_opening inBraces printed blank' hat
      have hinner : ((c.past gap).past (text ++ (gap' ++ ['\x7b']))).rest =
          inner ++ (['\x7d'] ++ (rest ++ after)) := Cursor.rest_past (by rw [hat]; simp)
      obtain ⟨nodes, e, hreads, hlast, hbares⟩ :=
        ihInside ⟨'\x7d', rest ++ after, rfl, .inl rfl⟩ hinner
      have hclose := Cursor.rest_past hinner
      have hbrace : e.skipGaps.current? = some '\x7d' := by
        rw [hlast, Cursor.current?, hclose]
        rfl
      obtain ⟨nodes', f, hothers, hf, hbares'⟩ := ih hafter (Cursor.rest_past hclose)
      rw [← hlast] at hothers hf
      refine ⟨_ :: nodes', f, .element (by rw [hskip]; exact hread) hreads hbrace hothers, ?_, ?_⟩
      · rw [hf, hlast]
        simp [Cursor.past_past]
      · rw [Node.bareAll, Draft.nodes, bare_node, hbare, hbares', Draft.node]
        simp [hbares]

/-! ## Documents -/

theorem parse_of_parts {source : String} {c d : Cursor} {comments nodes : List Node}
    {declaration : Option Declaration}
    (hcomments : readLeadingComments (.start source.toList) = .ok (comments, c))
    (hdeclaration : readDeclaration c = .ok (declaration, d))
    (hnodes : readContent (.start d) = .ok nodes) :
    parse source =
      .ok ⟨declaration, declaration.map (·.name), comments ++ nodes, 0, source⟩ := by
  have hblock : readBlock source =
      .ok ⟨declaration, declaration.map (·.name), comments ++ nodes, 0, source⟩ := by
    unfold readBlock
    rw [hcomments]
    simp only [bind, Except.bind, hdeclaration, hnodes]
    rfl
  rw [parse, hblock]
  rfl

/-- Content that is read up to the end of a source starts with no declaration. -/
theorem Reads.head_ne_hash {c d : Cursor} {nodes : List Node} (h : Reads false c nodes d)
    (hskip : c.skipGaps = c) (hend : d.skipGaps.rest = []) : c.current? ≠ some '#' := by
  have hitem : ∀ {item : Item × Cursor}, readItem false c.skipGaps = .ok item →
      c.current? ≠ some '#' := by
    intro item hread hhash
    obtain ⟨first, hfirst, hforeign⟩ := head_of_readItem hread
    rw [hskip, hhash] at hfirst
    cases hfirst
    exact absurd hforeign (by decide)
  cases h with
  | nil =>
      rw [hskip] at hend
      simp [Cursor.current?, hend]
  | leaf item _ => exact hitem item
  | element item _ _ _ => exact hitem item

theorem exists_comment_of_bareAll {comments : List CommentToken} :
    ∀ {nodes : List Node}, Node.bareAll nodes = Draft.nodes (comments.map .comment) →
      ∀ node ∈ nodes, ∃ comment, node = .comment comment := by
  induction comments with
  | nil =>
      intro nodes h
      cases nodes with
      | nil => simp
      | cons node nodes =>
          rw [Node.bareAll, List.map_nil, Draft.nodes] at h
          cases h
  | cons token comments ih =>
      intro nodes h
      cases nodes with
      | nil => simp
      | cons node nodes =>
          rw [Node.bareAll, List.map_cons, Draft.nodes] at h
          obtain ⟨hnode, hrest⟩ := List.cons.inj h
          refine List.forall_mem_cons.2 ⟨?_, ih hrest⟩
          rw [Draft.node] at hnode
          cases node with
          | comment comment => exact ⟨comment, rfl⟩
          | literal _ | superCall _ =>
              rw [Node.bare] at hnode
              cases hnode
          | element e =>
              obtain ⟨_, _ | _, _⟩ := e <;> rw [Node.bare] at hnode <;> cases hnode

/-- Where comments alone are read, all of them are leading ones. -/
theorem readLeadingComments_of_comments {c d : Cursor} {nodes : List Node}
    (h : Reads false c nodes d) (hnodes : ∀ node ∈ nodes, ∃ comment, node = .comment comment)
    (hend : startsComment d.skipGaps.rest = false) :
    readLeadingComments c = .ok (nodes, d.skipGaps) := by
  obtain ⟨comments, others, m, rfl, hcomments, hstart, f, hothers, hf, hskip⟩ :=
    readLeadingComments_of_reads h hend
  cases hothers with
  | nil =>
      rw [← hf, hskip, List.append_nil]
      exact hcomments
  | leaf item _ =>
      obtain ⟨comment, rfl⟩ := hnodes _ (List.mem_append_right _ List.mem_cons_self)
      rw [hskip] at item
      rw [startsComment_of_readItem item] at hstart
      cases hstart
  | element _ _ _ _ =>
      obtain ⟨comment, hcomment⟩ := hnodes _ (List.mem_append_right _ List.mem_cons_self)
      rw [Heading.node] at hcomment
      cases hcomment

/-- A name is declared wherever it ends. -/
theorem readDeclaration_of_stops {name rest : List Char} {c : Cursor}
    (hname : NameClass.block.IsName name) (hstops : Stops rest)
    (hrest : c.rest = ['#'] ++ (name ++ rest)) :
    ∃ declaration, readDeclaration c = .ok (some declaration, c.past (['#'] ++ name)) ∧
      declaration.name = String.ofList name := by
  have hat : c.current? = some '#' := by simp [Cursor.current?, hrest]
  have hlexeme : NameClass.block.lexeme (c.past ['#']).rest = name := by
    rw [Cursor.rest_past hrest]
    exact lexeme_append hname (heads_of_stops hstops)
  have hne : name.isEmpty = false := by simpa using ne_nil_of_isName hname
  refine ⟨⟨String.ofList name, c.spanTo ((c.past ['#']).past name)⟩, ?_, rfl⟩
  rw [readDeclaration, if_pos hat]
  simp only [hlexeme, hne, Cursor.past_past]
  rfl

theorem readDeclaration_printed {name rest : List Char} {c : Cursor}
    (hname : NameClass.block.IsName name) (hseparated : rest = [] ∨ StartsWithGap rest)
    (hrest : c.rest = ['#'] ++ (name ++ rest)) :
    ∃ declaration, readDeclaration c = .ok (some declaration, c.past (['#'] ++ name)) ∧
      declaration.name = String.ofList name := by
  refine readDeclaration_of_stops hname ?_ hrest
  rcases hseparated with rfl | ⟨d, tail, rfl, hd⟩
  · exact .nil
  · exact .cons (isStop_of_isGap hd) tail

/-- A block name and what is written down behind it are parsed as they are meant. -/
theorem exists_parse_of_declared {name back : List Char} {items : List Draft}
    (hname : NameClass.block.IsName name) (hseparated : back = [] ∨ StartsWithGap back)
    (hback : Document.Prints false true items back) :
    ∃ block, parse (String.ofList ('#' :: (name ++ back))) = .ok block ∧
      block.name = some (String.ofList name) ∧ Node.bareAll block.content = Draft.nodes items := by
  have hstart : (Cursor.start ('#' :: (name ++ back))).rest = ['#'] ++ (name ++ back) := rfl
  have hgapless : (Cursor.start ('#' :: (name ++ back))).skipGaps =
      .start ('#' :: (name ++ back)) := skipGaps_of_gapless (.cons (by decide) _)
  have hcomments : readLeadingComments (.start (String.ofList ('#' :: (name ++ back))).toList) =
      .ok ([], .start ('#' :: (name ++ back))) := by
    have hread := readLeadingComments_of_comments
      (.nil : Reads false (.start ('#' :: (name ++ back))) [] _) (by simp) (by rw [hgapless]; rfl)
    rw [String.toList_ofList]
    exact hread.trans (by rw [hgapless])
  obtain ⟨declaration, hdeclaration, hdeclared⟩ := readDeclaration_printed hname hseparated hstart
  have hrest := Cursor.rest_past (hstart.trans (List.append_assoc _ _ _).symm)
  obtain ⟨nodes, d, hreads, hlast, hbare⟩ :=
    reads_of_prints hback rfl (hrest.trans (List.append_nil _).symm)
  have hend : d.skipGaps.rest = [] := by
    rw [hlast]
    exact Cursor.rest_past (hrest.trans (List.append_nil _).symm)
  refine ⟨_, parse_of_parts hcomments hdeclaration (readContent_eq_ok_iff.2 ⟨d, hreads, hend⟩),
    ?_, hbare⟩
  rw [Option.map_some, hdeclared]

/-- **Parsing undoes printing.**  Whatever text a document is written down in, parsing it
succeeds and gives the comments, the name and the items of the document. -/
theorem parse_of_prints {document : DocumentDraft} {text : List Char} (h : document.Prints text) :
    ∃ block, parse (String.ofList text) = .ok block ∧
      block.declaration.map (·.name) = document.name.map String.ofList ∧
      block.name = document.name.map String.ofList ∧
      Node.bareAll block.content =
        Draft.nodes (document.comments.map .comment ++ document.items) := by
  cases h with
  | @undeclared comments items text content =>
      obtain ⟨nodes, d, hreads, hlast, hbare⟩ :=
        reads_of_prints content (c := .start text) rfl (List.append_nil text).symm
      have hend : d.skipGaps.rest = [] := by
        rw [hlast]
        simp [Cursor.start]
      obtain ⟨leading, others, m, rfl, hleading, -, f, hothers, hf, hskip⟩ :=
        readLeadingComments_of_reads hreads (by rw [hend]; rfl)
      have hend' : f.skipGaps.rest = [] := by rw [hf, hend]
      have hdeclaration : readDeclaration m = .ok (none, m) := by
        rw [readDeclaration, if_neg (hothers.head_ne_hash hskip hend')]
      refine ⟨_, parse_of_parts (by rw [String.toList_ofList]; exact hleading) hdeclaration
        (readContent_eq_ok_iff.2 ⟨f, hothers, hend'⟩), rfl, rfl, hbare⟩
  | @declared comments name items front back valid leading separated content =>
      have hsource : (Cursor.start (front ++ '#' :: (name ++ back))).rest =
          front ++ (['#'] ++ (name ++ back)) := rfl
      obtain ⟨nodes, d, hreads, hlast, hbare⟩ := reads_of_prints leading
        ⟨'#', name ++ back, rfl, .inr rfl⟩ hsource
      have hat := Cursor.rest_past hsource
      have hcomments := readLeadingComments_of_comments hreads (exists_comment_of_bareAll hbare)
        (by rw [hlast, hat]; rfl)
      obtain ⟨declaration, hdeclaration, hname⟩ := readDeclaration_printed valid separated hat
      rw [← hlast] at hat hdeclaration
      have hcontent : (d.skipGaps.past (['#'] ++ name)).rest = back ++ [] :=
        Cursor.rest_past (by rw [hat]; simp)
      obtain ⟨nodes', e, hreads', hlast', hbare'⟩ := reads_of_prints content rfl hcontent
      have hend : e.skipGaps.rest = [] := by
        rw [hlast']
        exact Cursor.rest_past hcontent
      refine ⟨_, parse_of_parts (by rw [String.toList_ofList]; exact hcomments) hdeclaration
        (readContent_eq_ok_iff.2 ⟨e, hreads', hend⟩), ?_, ?_, ?_⟩
      · simp [hname]
      · simp [hname]
      · rw [bareAll_append, nodes_append, hbare, hbare']

/-! ## A document with all kinds of items -/

/-- The attribute list of the first element: a super call, a value and a name alone. -/
def signupEntries : List EntryDraft :=
  [.superCall ⟨some "top".toList⟩, .setting "a:b".toList (some ⟨'"', "it\\\"s".toList⟩),
    .setting "off".toList none]

/-- The first element has a mark, a tag with a namespace, and a name list with an empty slot. -/
def signupHeading : HeadingDraft :=
  ⟨true, some "svg:h-1".toList, some [some "row".toList, none, some "_end".toList],
    some signupEntries⟩

/-- Its content: quoted texts, one of them over several lines, and super calls. -/
def signupInside : List Draft :=
  [.literal ⟨'\'', "x".toList⟩, .superCall ⟨none⟩,
    .literal ⟨'\x60', "  two\t \r\n\r\n\u00a0 words\u00a0x ".toList⟩, .superCall ⟨some "row".toList⟩]

/-- An element that is only a tag. -/
def signupBreak : HeadingDraft := ⟨false, some "br".toList, none, none⟩

/-- An element that ends in an empty slot. -/
def signupSlot : HeadingDraft := ⟨false, none, some [some "solo".toList, none], none⟩

/-- Two comments, a declaration, and items that could be taken for parts of those before them. -/
def signup : DocumentDraft :=
  ⟨[⟨" v1".toList, false⟩, ⟨" a*b ".toList, true⟩], some "form-2".toList,
    [.element signupHeading (some signupInside), .element signupBreak none,
      .literal ⟨'\'', "don\\'t".toList⟩, .element signupSlot none, .comment ⟨" end".toList, false⟩]⟩

/-- A text of this document. -/
def signupText : List Char :=
  "// v1\r\n/* a*b */#form-2\n\u0001@svg:h-1 / row , ,_end(// c\n super.top!, ".toList ++
    "a:b = \"it\\\"s\",/* d */off)\t\x7b 'x' super!\n\x60  two\t \r\n\r\n\u00a0 ".toList ++
      "words\u00a0x \x60 super.row!\x7d\u001fbr 'don\\'t' /solo, // end".toList

theorem signupEntries_prints : PrintsAttributes (some signupEntries)
    "(// c\n super.top!, a:b = \"it\\\"s\",/* d */off)".toList := by
  have hnone : IsFiller [] := .gap .nil
  have hspace : IsFiller [' '] := .gap (.singleton (by decide))
  have hfeed : Blank ['\n', ' '] := .append (.singleton (by decide)) (.singleton (by decide))
  have hlineComment : CommentToken.IsValid ⟨" c".toList, false⟩ := by simp [CommentToken.IsValid]
  have hblockComment : CommentToken.IsValid ⟨" d ".toList, true⟩ := by
    rw [CommentToken.IsValid, if_pos rfl]
    decide
  have hline : IsFiller ([] ++ (CommentToken.lexeme ⟨" c".toList, false⟩ ++ ['\n', ' '])) :=
    .comment .nil hlineComment (fun _ => ⟨'\n', [' '], rfl, .inr rfl⟩) (.gap hfeed)
  have hblock : IsFiller ([] ++ (CommentToken.lexeme ⟨" d ".toList, true⟩ ++ [])) :=
    .comment .nil hblockComment (by simp) hnone
  have htarget : SuperToken.IsValid ⟨some "top".toList⟩ := by
    rintro _ ⟨⟩
    decide
  have hvalue : EntryDraft.Prints (.setting "a:b".toList (some ⟨'"', "it\\\"s".toList⟩)) _ :=
    .value (by decide) hspace hspace (by decide)
  have hname : EntryDraft.Prints (.setting "off".toList none) _ := .name (by decide)
  have hentries : PrintsEntries signupEntries _ :=
    .cons (.superCall htarget) hnone hspace (.cons hvalue hnone hblock (.last hname hnone))
  have hlist := PrintsAttributes.entries hline hentries (by decide)
  simpa [CommentToken.lexeme, SuperToken.lexeme, QuotedToken.lexeme] using hlist

theorem signupHeading_prints : signupHeading.Prints
    "@svg:h-1 / row , ,_end(// c\n super.top!, a:b = \"it\\\"s\",/* d */off)".toList := by
  have hspace : Blank [' '] := .singleton (by decide)
  have htag : ∀ tag, signupHeading.tag = some tag → NameClass.tag.IsName tag := by
    rintro _ ⟨⟩
    decide
  have hfirst : IsSlot (some "row".toList) := by
    rintro _ ⟨⟩
    decide
  have hlast : IsSlot (some "_end".toList) := by
    rintro _ ⟨⟩
    decide
  have hslots : PrintsSlots [some "row".toList, none, some "_end".toList] _ :=
    .cons hfirst hspace hspace (.cons isSlot_none .nil .nil (.last hlast))
  have hheading := HeadingDraft.Prints.intro htag (.inl (by simp [signupHeading])) hspace
    (by simp [signupHeading]) (.some hspace hslots) .nil (fun _ => rfl) signupEntries_prints
  simpa [signupHeading, HeadingDraft.front] using hheading

theorem signupInside_prints : Prints true false signupInside
    " 'x' super!\n\x60  two\t \r\n\r\n\u00a0 words\u00a0x \x60 super.row!".toList := by
  have hspace : Blank [' '] := .singleton (by decide)
  have hfeed : Blank ['\n'] := .singleton (by decide)
  have hplain : SuperToken.IsValid ⟨none⟩ := by simp [SuperToken.IsValid]
  have hnamed : SuperToken.IsValid ⟨some "row".toList⟩ := by
    rintro _ ⟨⟩
    decide
  have hrow : Prints true false [.superCall ⟨some "row".toList⟩] _ :=
    .flat hspace (.superCall hnamed) (separatedFrom_nil False.elim) (.nil .nil)
  have hwords : Prints true false (signupInside.drop 2) _ :=
    .flat hfeed (.literal (by decide))
      (separatedFrom_of_isGap (fun _ _ => trivial) id (by decide)) hrow
  have hsuper : Prints true false (signupInside.drop 1) _ :=
    .flat hspace (.superCall hplain)
      (separatedFrom_of_isGap (fun _ _ => trivial) id (by decide)) hwords
  have hinside : Prints true false signupInside _ :=
    .flat hspace (.literal (by decide))
      (separatedFrom_of_isGap (fun _ _ => trivial) id (by decide)) hsuper
  simpa [SuperToken.lexeme, QuotedToken.lexeme] using hinside

theorem signupBreak_prints : signupBreak.Prints "br".toList := by
  have htag : ∀ tag, signupBreak.tag = some tag → NameClass.tag.IsName tag := by
    rintro _ ⟨⟩
    decide
  have hheading := HeadingDraft.Prints.intro htag (.inl (by simp [signupBreak])) .nil
    (fun _ => rfl) .none .nil (fun _ => rfl) .none
  simpa [signupBreak, HeadingDraft.front] using hheading

theorem signupSlot_prints : signupSlot.Prints "/solo,".toList := by
  have hfirst : IsSlot (some "solo".toList) := by
    rintro _ ⟨⟩
    decide
  have hslots : PrintsSlots [some "solo".toList, none] _ :=
    .cons hfirst .nil .nil (.last isSlot_none)
  have hheading : signupSlot.Prints _ :=
    .intro (by simp [signupSlot]) (.inr (by simp [signupSlot])) .nil (fun _ => rfl)
      (.some .nil hslots) .nil (fun _ => rfl) .none
  simpa [signupSlot, HeadingDraft.front] using hheading

theorem signup_prints : signup.Prints signupText := by
  have hspace : Blank [' '] := .singleton (by decide)
  have hreturn : Blank ['\r', '\n'] := .append (.singleton (by decide)) (.singleton (by decide))
  have hcontrol : Blank ['\n', '\u0001'] :=
    .append (.singleton (by decide)) (.singleton (by decide))
  have hline : CommentToken.IsValid ⟨" v1".toList, false⟩ := by simp [CommentToken.IsValid]
  have hblock : CommentToken.IsValid ⟨" a*b ".toList, true⟩ := by
    rw [CommentToken.IsValid, if_pos rfl]
    decide
  have hend : CommentToken.IsValid ⟨" end".toList, false⟩ := by simp [CommentToken.IsValid]
  have hsecond : Prints false false [.comment ⟨" a*b ".toList, true⟩] _ :=
    .flat hreturn (.comment hblock) (separatedFrom_nil (by simp [Draft.IsLineComment])) (.nil .nil)
  have hleading : Prints false false (signup.comments.map .comment) _ :=
    .flat .nil (.comment hline)
      ⟨fun _ => ⟨'\r', _, rfl, by decide⟩, fun _ _ => trivial,
        fun _ => .inl ⟨'\r', _, rfl, .inl rfl⟩⟩ hsecond
  have hlast : Prints false true (signup.items.drop 4) _ :=
    .flat hspace (.comment hend) (separatedFrom_nil fun _ => .inr ⟨rfl, rfl⟩) (.nil .nil)
  -- a comment and a quoted text start with neither a name nor a name list
  have hslotNext : ∀ next, (signup.items.drop 4).head? = some next →
      (Draft.element signupSlot none).MayPrecede next := by
    rintro _ ⟨⟩
    exact ⟨fun _ => id, fun _ => id⟩
  have hbreakNext : ∀ next, (signup.items.drop 2).head? = some next →
      (Draft.element signupBreak none).MayPrecede next := by
    rintro _ ⟨⟩
    exact ⟨fun _ => id, fun _ => id⟩
  have hslot : Prints false true (signup.items.drop 3) _ :=
    .flat hspace (.element signupSlot_prints)
      (separatedFrom_of_isGap hslotNext id (by decide)) hlast
  have hquoted : Prints false true (signup.items.drop 2) _ :=
    .flat hspace (.literal (by decide))
      (separatedFrom_of_isGap (fun _ _ => trivial) id (by decide)) hslot
  have hunit : Blank ['\u001f'] := .singleton (by decide)
  have hbreak : Prints false true (signup.items.drop 1) _ :=
    .flat hunit (.element signupBreak_prints)
      (separatedFrom_of_isGap hbreakNext id (by decide)) hquoted
  have htab : Blank ['\t'] := .singleton (by decide)
  have hitems : Prints false true signup.items _ :=
    .braced hcontrol signupHeading_prints htab signupInside_prints
      (fun _ => ⟨'\u001f', _, rfl, by decide⟩) hbreak
  have hall : signup.Prints _ :=
    .declared (by decide) hleading (.inr ⟨'\n', _, rfl, by decide⟩) hitems
  unfold signupText
  simpa [CommentToken.lexeme, QuotedToken.lexeme] using hall

/-- The text is parsed.  The lines between backticks lose their layout, and all else is as it is
written. -/
theorem signup_is_parsed :
    signup.Prints signupText ∧ ∃ block, parse (String.ofList signupText) = .ok block ∧
      block.declaration.map (·.name) = some "form-2" ∧ block.name = some "form-2" ∧
      Node.bareAll block.content =
        [.comment ⟨" v1", false, .blank⟩, .comment ⟨" a*b ", true, .blank⟩,
          .element ⟨⟨true, some "svg:h-1", some [some "row", none, some "_end"],
              some ⟨some ⟨some "top", .blank⟩, [⟨"a:b", "it\\\"s"⟩, ⟨"off", ""⟩], .blank⟩⟩,
            some [.literal ⟨"x", false, .blank⟩, .superCall ⟨none, .blank⟩,
              .literal ⟨"two\nwords\u00a0x", true, .blank⟩, .superCall ⟨some "row", .blank⟩],
            .blank⟩,
          .element ⟨⟨false, some "br", none, none⟩, none, .blank⟩,
          .literal ⟨"don\\'t", false, .blank⟩,
          .element ⟨⟨false, none, some [some "solo", none], none⟩, none, .blank⟩,
          .comment ⟨" end", false, .blank⟩] := by
  obtain ⟨block, hparse, hdeclaration, hname, hcontent⟩ := parse_of_prints signup_prints
  exact ⟨signup_prints, block, hparse, hdeclaration, hname, hcontent⟩

end BemMarkup.Document

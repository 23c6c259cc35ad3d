import BemMarkup.Proofs.Document.Mending

/-!
# Places of parse errors

A parse error is never found too late: what stands before the place of it can be completed to a
source that is parsed.

A mistake in content is in some elements that are open.  Once the item that it is in has been
completed, or left out, a closing brace for each of them completes the content.  All that has
been read before is read again, because texts that go on alike from the mistake on do so from
the start on.

## Main definitions

* `Fault.CanBeContent`, `Fault.CanBeParsed`: what stands before a mistake can be completed to
  content, and to a source.

## Main results

* `readContent_mended`: content that has a mistake, at any depth.
* `parse_viable`: the source before a parse error can be completed.
-/

namespace BemMarkup.Document

open Text

/-! ## Content -/

section Content

variable {p : Progress} {fault : Fault}

theorem heads_replicate {P : Char → Prop} (h : P '\x7d') (n : Nat) :
    Heads P (List.replicate n '\x7d') := by
  cases n with
  | zero => exact .nil
  | succ n => exact .cons h _

theorem gapless_replicate (n : Nat) : Gapless (List.replicate n '\x7d') :=
  heads_replicate (by decide) n

/-- As many closing braces as elements are open complete the content. -/
theorem readContent_of_closers {n : Nat} (houter : p.outer.length = n)
    (hrest : p.cursor.skipGaps.rest = List.replicate n '\x7d') :
    ∃ nodes, readContent p = .ok nodes := by
  induction n generalizing p with
  | zero =>
      obtain ⟨outer, done, c⟩ := p
      cases List.eq_nil_of_length_eq_zero houter
      have hcurrent : c.skipGaps.current? = none := by
        rw [Cursor.current?, hrest]
        rfl
      refine ⟨_, readContent_of_complete ?_⟩
      simp only [Progress.step, hcurrent]
  | succ n ih =>
      obtain ⟨outer, done, c⟩ := p
      obtain ⟨element, outer, rfl⟩ := List.exists_cons_of_length_eq_add_one houter
      rw [List.replicate_succ] at hrest
      have hcurrent : c.skipGaps.current? = some '\x7d' := Cursor.current?_of_rest_eq hrest
      rw [readContent_of_step (step_of_closingBrace element outer done hcurrent)]
      refine ih (by simpa using houter) ?_
      have hlast : (c.skipGaps.past ['\x7d']).rest = List.replicate n '\x7d' :=
        Cursor.rest_past (by rw [hrest]; rfl)
      rw [Cursor.skipGaps_rest, hlast, dropWhile_of_gapless (gapless_replicate n)]

/-- What stands before a mistake in content can be completed, whatever is open around it. -/
def Fault.CanBeContent (fault : Fault) (p : Progress) : Prop :=
  ∃ text more, fault.IsBehind p.cursor text ∧ Continues p.cursor.rest (text ++ more) ∧
    ∀ p' : Progress, p'.outer.length = p.outer.length →
      p'.cursor.skipGaps.rest = (text ++ more).dropWhile isGap →
        ∃ nodes, readContent p' = .ok nodes

theorem inBraces_congr {p' : Progress} (h : p'.outer.length = p.outer.length) :
    p'.inBraces = p.inBraces := by
  obtain ⟨outer, done, c⟩ := p
  obtain ⟨outer', done', c'⟩ := p'
  cases outer <;> cases outer' <;> simp_all [Progress.inBraces]

/-- An item that is read again opens as many elements as before. -/
theorem length_push {p' : Progress} (h : p'.outer.length = p.outer.length) (item : Item)
    (f : Nat → Nat) (c c' d d' : Cursor) :
    (p'.push c' (item.moved f, d')).outer.length = (p.push c (item, d)).outer.length := by
  cases item <;> simp [Progress.push, Item.moved, h]

/-- Before an item that is none, all open elements can be closed. -/
theorem canBeContent_of_offset (h : fault.offset = p.cursor.skipGaps.offset) :
    fault.CanBeContent p := by
  have hgap := p.cursor.skipGaps_consumes
  have hblank := blank_takeWhile p.cursor.rest
  have hgapless : Gapless p.cursor.skipGaps.rest := by
    rw [Cursor.skipGaps_rest]
    exact gapless_dropWhile _
  generalize p.cursor.rest.takeWhile isGap = gap at hgap hblank
  refine ⟨gap, '\n' :: List.replicate p.outer.length '\x7d',
    ⟨⟨_, hgap.rest_eq.symm⟩, h.trans hgap.offset_eq⟩, ?_, ?_⟩
  · have hclosed : Closed (List.replicate p.outer.length '\x7d') :=
      .inr (heads_replicate (by decide) _)
    have hclosers : Continues (gap ++ ([] ++ p.cursor.skipGaps.rest)) (gap ++ ([] ++ _)) :=
      Piece.nil.continues hblank (.of_break hgapless (gapless_replicate p.outer.length) hclosed)
    rw [hgap.rest_eq]
    exact hclosers
  · intro p' houter hrest
    refine readContent_of_closers houter ?_
    rw [hrest, dropWhile_of_blank hblank, List.dropWhile_cons_of_pos (by decide),
      dropWhile_of_gapless (gapless_replicate _)]

/-- Behind an item that has been completed, all open elements can be closed. -/
theorem canBeContent_of_item (h : fault.CanBeItem p.cursor.skipGaps p.inBraces) :
    fault.CanBeContent p := by
  obtain ⟨text, more, hbehind, hstart, hmended⟩ := h
  have hgap := p.cursor.skipGaps_consumes
  have hblank := blank_takeWhile p.cursor.rest
  generalize p.cursor.rest.takeWhile isGap = gap at hgap hblank
  obtain ⟨behind, hrestEq⟩ := hbehind.stands
  refine ⟨gap ++ text, more ++ '\n' :: List.replicate p.outer.length '\x7d', hbehind.trans hgap,
    ?_, ?_⟩
  · rw [hgap.rest_eq, ← hrestEq, List.append_assoc]
    exact hstart.continues hblank _ _
  · intro p' houter hrest
    rw [List.append_assoc, dropWhile_of_blank hblank,
      dropWhile_of_front (List.prefix_refl text) hstart.ne_nil hstart.gapless] at hrest
    have hclosers := dropWhile_of_gapless (gapless_replicate p.outer.length)
    have hnext : (('\n' :: List.replicate p.outer.length '\x7d').dropWhile isGap).head? ≠
        some '\x7b' := by
      rw [List.dropWhile_cons_of_pos (by decide), hclosers]
      exact fun hopen => heads_replicate (P := (· ≠ '\x7b')) (by decide) _ _ hopen rfl
    obtain ⟨node, d, hitem, hd⟩ := hmended hnext hrest
    rw [← inBraces_congr houter] at hitem
    rw [readContent_of_step (step_of_readItem hitem)]
    refine readContent_of_closers (n := p.outer.length) houter ?_
    rw [Progress.push_cursor, hd, List.dropWhile_cons_of_pos (by decide), hclosers]

/-- What stands before a mistake behind a closing brace can be completed with the brace. -/
theorem canBeContent_of_closingBrace {element : OpenElement} {outer : List OpenElement}
    {done : List Node} (houter : p.outer = element :: outer)
    (hbrace : p.cursor.skipGaps.current? = some '\x7d')
    (h : fault.CanBeContent ⟨outer, done, p.cursor.skipGaps.past ['\x7d']⟩) :
    fault.CanBeContent p := by
  obtain ⟨text, more, hbehind, -, hmended⟩ := h
  have hgap := p.cursor.skipGaps_consumes
  have hblank := blank_takeWhile p.cursor.rest
  generalize p.cursor.rest.takeWhile isGap = gap at hgap hblank
  have hclose := Cursor.past_current_consumes hbrace
  refine ⟨gap ++ (['\x7d'] ++ text), more, (hbehind.trans hclose).trans hgap, ?_, ?_⟩
  · rw [(hgap.trans hclose).rest_eq, List.append_assoc, List.append_assoc, List.append_assoc]
    exact .of_mark hblank (by decide) (by decide) (by decide) _ _
  · rintro ⟨outer', done', c'⟩ houter' hrest
    rw [houter] at houter'
    obtain ⟨element', outer', rfl⟩ := List.exists_cons_of_length_eq_add_one houter'
    rw [List.append_assoc, dropWhile_of_blank hblank, List.append_assoc, List.singleton_append,
      List.dropWhile_cons_of_neg (by decide)] at hrest
    have hbrace' : c'.skipGaps.current? = some '\x7d' := Cursor.current?_of_rest_eq hrest
    rw [readContent_of_step (step_of_closingBrace element' outer' done' hbrace')]
    refine hmended _ (by simpa using houter') ?_
    have hlast : (c'.skipGaps.past ['\x7d']).rest = text ++ more :=
      Cursor.rest_past (by rw [hrest]; rfl)
    rw [Cursor.skipGaps_rest, hlast]

/-- What stands before a mistake behind an item can be completed with the item. -/
theorem canBeContent_of_readItem {item : Item} {next : Cursor}
    (hitem : readItem p.inBraces p.cursor.skipGaps = .ok (item, next))
    (h : fault.CanBeContent (p.push p.cursor.skipGaps (item, next))) : fault.CanBeContent p := by
  obtain ⟨text, more, hbehind, hcontinues, hmended⟩ := h
  rw [Progress.push_cursor] at hbehind hcontinues
  obtain ⟨core, behind, hne, hblank, hconsumes, hpiece, hagain⟩ := readItem_again hitem
  have hfirst := p.cursor.skipGaps_consumes.trans hconsumes
  refine ⟨_, more, hbehind.trans hfirst, ?_, ?_⟩
  · rw [List.append_assoc]
    exact continues_of_readItem hitem hfirst hcontinues
  · intro p' houter hrest
    have hall : p'.cursor.skipGaps.rest = core ++ (behind ++ (text ++ more)) := by
      rw [hrest, List.append_assoc, List.append_assoc, List.append_assoc,
        dropWhile_of_blank (blank_takeWhile _), hpiece.dropWhile hne]
    have hfollow : Continues (behind ++ ([] ++ next.rest)) (behind ++ ([] ++ (text ++ more))) :=
      Piece.nil.continues hblank hcontinues
    obtain ⟨f, hf⟩ := exists_translates p.cursor.skipGaps p'.cursor.skipGaps
    obtain ⟨d', hitem', hskip⟩ := hagain hall hfollow hf
    rw [← inBraces_congr houter] at hitem'
    rw [readContent_of_step (step_of_readItem hitem')]
    refine hmended _ (length_push houter item f _ _ _ _) ?_
    rw [Progress.push_cursor, hskip, Cursor.skipGaps_rest, Cursor.rest_past hall,
      dropWhile_of_blank hblank]

/-- What stands before a mistake in content can be completed. -/
theorem readContent_mended (h : readContent p = .error fault) : fault.CanBeContent p := by
  induction p using readContent.induct with
  | case1 p fault' hstep =>
      rw [readContent_of_fault hstep] at h
      cases h
      unfold Progress.step at hstep
      dsimp only at hstep
      split at hstep
      · cases hstep
      · cases hstep
        exact canBeContent_of_offset rfl
      · cases hstep
      · exact (readItem_mended (map_eq_error_iff.1 hstep)).elim canBeContent_of_offset
          canBeContent_of_item
  | case2 p hstep =>
      rw [readContent_of_complete hstep] at h
      cases h
  | case3 p q hstep ih =>
      rw [readContent_of_step hstep] at h
      have hmended := ih h
      unfold Progress.step at hstep
      dsimp only at hstep
      split at hstep
      · cases hstep
      · cases hstep
      · rename_i houter hbrace
        cases hstep
        exact canBeContent_of_closingBrace houter hbrace hmended
      · obtain ⟨⟨item, next⟩, hitem, hpush⟩ := map_eq_ok_iff.1 hstep
        cases hpush
        exact canBeContent_of_readItem hitem hmended

end Content

/-! ## Before the content -/

section Front

variable {c d : Cursor} {fault : Fault} {nodes : List Node}

theorem step_of_readItem_error {p : Progress} {first : Char}
    (hfirst : p.cursor.skipGaps.current? = some first) (hne : first ≠ '\x7d')
    (h : readItem p.inBraces p.cursor.skipGaps = .error fault) : p.step = .error fault := by
  obtain ⟨outer, done, c⟩ := p
  unfold Progress.step
  cases outer <;> simp_all [Except.map]

/-- A mistake in the comments before everything else is one in the content. -/
theorem readContent_of_readLeadingComments (h : readLeadingComments c = .error fault)
    (done : List Node) : readContent ⟨[], done, c⟩ = .error fault := by
  induction c using readLeadingComments.induct generalizing done with
  | case1 c hstart fault' hread =>
      have hfault : fault' = fault := by
        rw [readLeadingComments, if_pos hstart] at h
        split at h <;> simp_all
      subst hfault
      obtain ⟨tail, htail⟩ := head_of_startsComment hstart
      have hitem : readItem false c.skipGaps = .error fault' := by
        rw [readItem_comment false hstart, hread]
        rfl
      have hcurrent : c.skipGaps.current? = some '/' := Cursor.current?_of_rest_eq htail
      exact readContent_of_fault (step_of_readItem_error hcurrent (by decide) hitem)
  | case2 c hstart token next hread ih =>
      rw [readLeadingComments_of_comment hstart hread] at h
      have hitem : readItem false c.skipGaps = .ok (.leaf (token.node c.skipGaps next), next) := by
        rw [readItem_comment false hstart, hread]
        rfl
      rw [readContent_of_step (step_of_readItem (p := ⟨[], done, c⟩) hitem)]
      exact ih (map_eq_error_iff.1 h) _
  | case3 c hstart =>
      rw [readLeadingComments, if_neg hstart] at h
      cases h

theorem exists_comment_of_readLeadingComments (h : readLeadingComments c = .ok (nodes, d)) :
    ∀ node ∈ nodes, ∃ comment, node = .comment comment := by
  induction c using readLeadingComments.induct generalizing nodes d with
  | case1 c hstart fault hread =>
      rw [readLeadingComments, if_pos hstart] at h
      split at h
      · cases h
      · simp_all
  | case2 c hstart token next hread ih =>
      rw [readLeadingComments_of_comment hstart hread] at h
      obtain ⟨⟨others, last⟩, hothers, h⟩ := map_eq_ok_iff.1 h
      cases h
      exact List.forall_mem_cons.2 ⟨⟨_, rfl⟩, ih hothers⟩
  | case3 c hstart =>
      rw [readLeadingComments, if_neg hstart] at h
      cases h
      simp

theorem exists_comment_of_movedAll (f : Nat → Nat)
    (h : ∀ node ∈ nodes, ∃ comment, node = .comment comment) :
    ∀ node ∈ Node.movedAll f nodes, ∃ comment, node = .comment comment := by
  induction nodes with
  | nil => simp [Node.movedAll]
  | cons node nodes ih =>
      obtain ⟨⟨comment, rfl⟩, hothers⟩ := List.forall_mem_cons.1 h
      rw [Node.movedAll, Node.moved]
      exact List.forall_mem_cons.2 ⟨⟨_, rfl⟩, ih hothers⟩

/-- The comments at the start of a source are read again where the text behind them goes on
alike. -/
theorem comments_again {source : List Char} {m : Cursor}
    (h : readLeadingComments (.start source) = .ok (nodes, m)) :
    ∃ front, (Cursor.start source).Consumes front m ∧ ∀ {rest : List Char},
      Continues m.rest rest → ∃ nodes' e, Reads false (.start (front ++ rest)) nodes' e ∧
        (∀ node ∈ nodes', ∃ comment, node = .comment comment) ∧
        e.skipGaps = ((Cursor.start (front ++ rest)).past front).skipGaps := by
  obtain ⟨e, hreads, rfl⟩ := reads_of_readLeadingComments h
  obtain ⟨text, htext, -⟩ := hreads.laid
  have hgap := e.skipGaps_consumes
  have hblank := blank_takeWhile e.rest
  generalize e.rest.takeWhile isGap = gap at hgap hblank
  refine ⟨text ++ gap, htext.trans hgap, fun {rest} hcontinues => ?_⟩
  have hfollow : Continues (gap ++ ([] ++ e.skipGaps.rest)) (gap ++ ([] ++ rest)) :=
    Piece.nil.continues hblank hcontinues
  have hall : (Cursor.start (text ++ gap ++ rest)).rest = text ++ (gap ++ rest) :=
    List.append_assoc _ _ _
  obtain ⟨f, hf⟩ := exists_translates (.start source) (.start (text ++ gap ++ rest))
  obtain ⟨e', hagain, hskip⟩ := hreads.again htext hall (by rw [hgap.rest_eq]; exact hfollow) hf
  refine ⟨_, e', hagain, exists_comment_of_movedAll f (exists_comment_of_readLeadingComments h), ?_⟩
  rw [hskip, skipGaps_of_blank hblank (Cursor.rest_past hall), Cursor.past_past]

/-- A declaration is at fault where it starts, since it lacks its name. -/
theorem readDeclaration_error (h : readDeclaration c = .error fault) :
    c.current? = some '#' ∧ fault.offset = c.offset := by
  unfold readDeclaration at h
  split at h
  · rename_i hhash
    dsimp only at h
    split at h
    · cases h
      exact ⟨hhash, rfl⟩
    · cases h
  · cases h

/-- A declaration is a number sign and a name. -/
theorem readDeclaration_cases {declaration : Option Declaration}
    (h : readDeclaration c = .ok (declaration, d)) :
    declaration = none ∧ d = c ∨ ∃ name, NameClass.block.IsName name ∧
      Heads (fun e => isNameChar e = false) d.rest ∧ c.Consumes (['#'] ++ name) d := by
  unfold readDeclaration at h
  split at h
  · rename_i hhash
    dsimp only at h
    split at h
    · cases h
    · rename_i hname
      cases h
      have hmark := Cursor.past_current_consumes hhash
      have hlexeme := Cursor.past_consumes (NameClass.lexeme_prefix .block (c.past ['#']).rest)
      have hne : NameClass.block.lexeme (c.past ['#']).rest ≠ [] := by simpa using hname
      exact .inr ⟨_, NameClass.lexeme_isName hne, heads_behind_lexeme hne hlexeme.rest_eq,
        hmark.trans hlexeme⟩
  · cases h
    exact .inl ⟨rfl, rfl⟩

end Front

/-! ## Documents -/

section Documents

/-- What stands before the mistake can be completed to a source that is parsed. -/
def Fault.CanBeParsed (fault : Fault) (source : String) : Prop :=
  ∃ text more block, fault.IsBehind (.start source.toList) text ∧
    parse (String.ofList (text ++ more)) = .ok block

variable {source : String} {fault : Fault} {comments : List Node} {m : Cursor}

/-- A source that lacks the end of a comment at its start can be completed. -/
theorem comments_mended (h : readLeadingComments (.start source.toList) = .error fault) :
    fault.CanBeParsed source := by
  obtain ⟨text, more, hbehind, -, hmended⟩ :=
    readContent_mended (readContent_of_readLeadingComments h [])
  obtain ⟨nodes, hnodes⟩ := hmended (.start (.start (text ++ more))) rfl
    (by rw [Cursor.skipGaps_rest]; rfl)
  obtain ⟨d, hreads, hend⟩ := readContent_eq_ok_iff.1 hnodes
  exact ⟨text, more, _, hbehind, parse_of_reads (by rw [String.toList_ofList]; exact hreads) hend⟩

/-- Before a declaration without a name, the comments are a source. -/
theorem declaration_mended
    (hcomments : readLeadingComments (.start source.toList) = .ok (comments, m))
    (h : readDeclaration m = .error fault) : fault.CanBeParsed source := by
  obtain ⟨hhash, hoffset⟩ := readDeclaration_error h
  obtain ⟨tail, htail⟩ := Cursor.rest_eq_of_current? hhash
  obtain ⟨front, hfront, hagain⟩ := comments_again hcomments
  have hbreak : Continues m.rest ['\n'] := by
    rw [htail]
    exact .of_break (.cons (by decide) tail) .nil .nil
  obtain ⟨nodes, e, hreads, -, hlast⟩ := hagain hbreak
  have hend : e.skipGaps.rest = [] := by
    rw [hlast, Cursor.skipGaps_rest, Cursor.rest_past rfl]
    rfl
  exact ⟨front, ['\n'], _, ⟨⟨_, hfront.rest_eq.symm⟩, hoffset.trans hfront.offset_eq⟩,
    parse_of_reads (by rw [String.toList_ofList]; exact hreads) hend⟩

/-- A source without a declaration that has a mistake in its content can be completed. -/
theorem undeclared_mended
    (hcomments : readLeadingComments (.start source.toList) = .ok (comments, m))
    (h : readContent (.start m) = .error fault) : fault.CanBeParsed source := by
  obtain ⟨text, more, hbehind, hcontinues, hmended⟩ := readContent_mended h
  obtain ⟨front, hfront, hagain⟩ := comments_again hcomments
  obtain ⟨leading, e, hleading, -, hlast⟩ := hagain hcontinues
  obtain ⟨nodes, hnodes⟩ := hmended (.start e) rfl (by
    rw [Progress.start, hlast, Cursor.skipGaps_rest, Cursor.rest_past rfl])
  obtain ⟨last, hreads, hend⟩ := readContent_eq_ok_iff.1 hnodes
  have hall : Reads false (.start (String.ofList (front ++ text ++ more)).toList)
      (leading ++ nodes) last := by
    rw [String.toList_ofList, List.append_assoc]
    exact hleading.append hreads
  exact ⟨front ++ text, more, _, hbehind.trans hfront, parse_of_reads hall hend⟩

/-- A source with a declaration that has a mistake in its content can be completed. -/
theorem declared_mended {d : Cursor} {name : List Char}
    (hcomments : readLeadingComments (.start source.toList) = .ok (comments, m))
    (hname : NameClass.block.IsName name) (hbound : Heads (fun e => isNameChar e = false) d.rest)
    (hdeclaration : m.Consumes (['#'] ++ name) d) (h : readContent (.start d) = .error fault) :
    fault.CanBeParsed source := by
  obtain ⟨text, more, hbehind, hcontinues, hmended⟩ := readContent_mended h
  obtain ⟨front, hfront, hagain⟩ := comments_again hcomments
  have hhash : Continues m.rest ('#' :: (name ++ (text ++ more))) := by
    rw [hdeclaration.rest_eq]
    exact .of_mark .nil (by decide) (by decide) (by decide) _ _
  obtain ⟨leading, e, hleading, honly, hlast⟩ := hagain hhash
  have hat : e.skipGaps.rest = ['#'] ++ (name ++ (text ++ more)) := by
    rw [hlast, Cursor.skipGaps_rest, Cursor.rest_past rfl]
    exact dropWhile_of_gapless (.cons (by decide) _)
  have hcommentsAgain := readLeadingComments_of_comments hleading honly (by rw [hat]; rfl)
  obtain ⟨declaration, hdeclared, -⟩ :=
    readDeclaration_of_stops hname (hcontinues.stops_of_name hbound) hat
  have hbehindName : (e.skipGaps.past (['#'] ++ name)).rest = text ++ more :=
    Cursor.rest_past (by rw [hat, List.append_assoc])
  obtain ⟨nodes, hnodes⟩ := hmended (.start (e.skipGaps.past (['#'] ++ name))) rfl (by
    rw [Progress.start, Cursor.skipGaps_rest, hbehindName])
  have hsource : (String.ofList (front ++ (['#'] ++ name ++ text) ++ more)).toList =
      front ++ '#' :: (name ++ (text ++ more)) := by
    rw [String.toList_ofList]
    simp
  rw [← hsource] at hcommentsAgain
  exact ⟨front ++ (['#'] ++ name ++ text), more, _, (hbehind.trans hdeclaration).trans hfront,
    parse_of_parts hcommentsAgain hdeclared hnodes⟩

/-- What stands before the mistake in a source can be completed to a source without one. -/
theorem readBlock_mended (h : readBlock source = .error fault) : fault.CanBeParsed source := by
  rcases bind_eq_error_iff.1 h with hcomments | ⟨⟨comments, m⟩, hcomments, h⟩
  · exact comments_mended hcomments
  · rcases bind_eq_error_iff.1 h with hdeclaration | ⟨⟨declaration, d⟩, hdeclaration, h⟩
    · exact declaration_mended hcomments hdeclaration
    · rcases bind_eq_error_iff.1 h with hcontent | ⟨nodes, -, h⟩
      · rcases readDeclaration_cases hdeclaration with ⟨-, rfl⟩ | ⟨name, hname, hbound, hconsumes⟩
        · exact undeclared_mended hcomments hcontent
        · exact declared_mended hcomments hname hbound hconsumes hcontent
      · cases h

/-- **Places of parse errors.**  What stands before the place of a parse error can be completed
to a source that is parsed. -/
theorem parse_viable {source : String} {error : ParseError} (h : parse source = .error error) :
    ∃ before after, source = before ++ after ∧ error.offset = before.utf8ByteSize ∧
      error.offset ≤ source.utf8ByteSize ∧ ∃ more block, parse (before ++ more) = .ok block := by
  unfold parse at h
  cases hblock : readBlock source with
  | ok block =>
      rw [hblock] at h
      cases h
  | error fault =>
      rw [hblock] at h
      cases h
      obtain ⟨text, more, block, hbehind, hparse⟩ := readBlock_mended hblock
      obtain ⟨after, hafter⟩ := hbehind.stands
      have hsource : source = String.ofList text ++ String.ofList after := by
        rw [← String.ofList_append, hafter]
        exact String.ofList_toList.symm
      have hoffset : (fault.locate source).offset = (String.ofList text).utf8ByteSize := by
        rw [utf8ByteSize_ofList]
        exact hbehind.offset_eq.trans (Nat.zero_add _)
      refine ⟨_, _, hsource, hoffset, ?_, String.ofList more, block, ?_⟩
      · rw [hoffset, hsource, String.utf8ByteSize_append]
        exact Nat.le_add_right _ _
      · rw [← String.ofList_append]
        exact hparse

/-- An entry that no comma stands before, in an attribute list between braces. -/
theorem missingComma_viable :
    ∃ error, parse "#card ul \x7b li(k=\"é\", x y) \x7d" = .error error ∧ error.offset = 24 ∧
      ∃ before after, "#card ul \x7b li(k=\"é\", x y) \x7d" = before ++ after ∧
        error.offset = before.utf8ByteSize ∧
        error.offset ≤ "#card ul \x7b li(k=\"é\", x y) \x7d".utf8ByteSize ∧
        ∃ more block, parse (before ++ more) = .ok block := by
  have hread : (match parse "#card ul \x7b li(k=\"é\", x y) \x7d" with
      | .error error => some error.offset
      | .ok _ => none) = some 24 := by decide +kernel
  cases hparse : parse "#card ul \x7b li(k=\"é\", x y) \x7d" with
  | ok block => simp [hparse] at hread
  | error error =>
      rw [hparse] at hread
      exact ⟨error, rfl, Option.some.inj hread, parse_viable hparse⟩

end Documents

end BemMarkup.Document

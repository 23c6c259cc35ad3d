import BemMarkup.Proofs.Document.Excerpts

/-!
# Mistakes that can be mended

Where a reader meets a mistake, all that stands before it is right: it can be completed to a
text that is read without one.  So a mistake is never found too late.

What completes the text depends on what the reader is in the middle of, and is found by going
through its mistakes: a token that lacks its end is ended, an entry that lacks its name gets
one, and an attribute list is closed.  What has been read before is read again, since there the
text goes on as it did or with a line break.

## Main definitions

* `Fault.IsBehind`: what stands between a reader and its mistake.
* `Resumes`: how a text may go on behind filler if it does not go on as before.
* `Fault.CanBeClosed`, `Fault.CanBeItem`: what stands before a mistake can be completed, in
  parentheses and as an item.
* `ReadsValue`, `ReadsAttribute`, `ReadsEntries`: what is read in parentheses once the text has been
  completed.

## Main results

* `skipFiller_mended`, `readEntries_mended`, `readAttributeGroup_mended`: in parentheses.
* `readElement_mended`, `readItem_mended`: elements and all items.
-/

namespace BemMarkup.Document

open Text

/-! ## Places of mistakes -/

/-- Between the cursor and the place of the mistake there is the text. -/
structure Fault.IsBehind (fault : Fault) (c : Cursor) (text : List Char) : Prop where
  stands : text <+: c.rest
  offset_eq : fault.offset = c.offset + byteLength text

section Places

variable {c d : Cursor} {fault : Fault} {front text more rest : List Char}

theorem Fault.IsBehind.trans (h : fault.IsBehind d text) (hfront : c.Consumes front d) :
    fault.IsBehind c (front ++ text) := by
  obtain ⟨rest, hrest⟩ := h.stands
  refine ⟨⟨rest, by rw [hfront.rest_eq, ← hrest, List.append_assoc]⟩, ?_⟩
  rw [h.offset_eq, hfront.offset_eq, byteLength_append, Nat.add_assoc]

/-- A mistake is where a reader gets to before it finds it. -/
theorem Cursor.Consumes.isBehind {kind : ParseErrorKind} (h : c.Consumes text d) :
    Fault.IsBehind ⟨d.offset, kind⟩ c text :=
  ⟨⟨d.rest, h.rest_eq.symm⟩, h.offset_eq⟩

theorem exists_translates (c c' : Cursor) : ∃ f, Translates f c c' :=
  ⟨fun n => c'.offset + (n - c.offset), fun n => by simp⟩

/-- Behind filler a text may start as it did, or else with a line break. -/
def Resumes (text more : List Char) : Prop :=
  text ≠ [] ∨ ∃ d tail, more = '\n' :: d :: tail ∧ isGap d = false ∧ d ≠ '/'

/-- What stands before the mistake in parentheses can be completed and closed, and then it is
read as a property says of where it starts and of what is behind the closing parenthesis. -/
def Fault.CanBeClosed (fault : Fault) (c : Cursor) (good : Cursor → List Char → Prop) : Prop :=
  ∃ text more, fault.IsBehind c text ∧ ∀ rest, Resumes text (more ++ ')' :: rest) ∧
    ∀ c', c'.rest = (text ++ (more ++ ')' :: rest)).dropWhile isGap → good c' rest

theorem Resumes.fillerEnds (h : Resumes text more) (htext : text <+: rest) (hgap : Gapless rest)
    (hslash : rest.head? ≠ some '/') : FillerEnds rest (text ++ more) := by
  cases text with
  | nil =>
      obtain ⟨d, tail, rfl, hd, hne⟩ := h.resolve_left (by simp)
      exact .of_break hd hne tail
  | cons d text =>
      obtain ⟨tail, rfl⟩ := htext
      exact .of_head (hgap d rfl) (fun hd => hslash (by rw [hd]; rfl)) _ _

/-- A text that goes on as it did, even only at its start, starts with no gap where it did not. -/
theorem dropWhile_of_front (htext : text <+: rest) (hne : text ≠ []) (hgap : Gapless rest)
    (more : List Char) : (text ++ more).dropWhile isGap = text ++ more := by
  obtain ⟨others, rfl⟩ := htext
  cases text with
  | nil => exact absurd rfl hne
  | cons d text => exact dropWhile_of_gapless (.cons (hgap d rfl) _)

theorem head_of_front (htext : text <+: rest) (hne : text ≠ []) (more : List Char) :
    (text ++ more).head? = rest.head? := by
  obtain ⟨others, rfl⟩ := htext
  cases text with
  | nil => exact absurd rfl hne
  | cons d text => rfl

end Places

/-! ## Comments and quoted texts -/

section Tokens

variable {c d : Cursor} {fault : Fault}

theorem not_infix_of_beforeClosingMark?_eq_none {cs : List Char}
    (h : beforeClosingMark? cs = none) : ¬ ['*', '/'] <:+: cs := by
  induction cs using beforeClosingMark?.induct with
  | case1 => simp
  | case2 rest => simp [beforeClosingMark?] at h
  | case3 c cs hne ih =>
      rw [beforeClosingMark?] at h
      · rw [List.infix_cons_iff, not_or]
        refine ⟨fun hprefix => ?_, ih (Option.map_eq_none_iff.1 h)⟩
        obtain ⟨rfl, hslash⟩ := List.cons_prefix_cons.1 hprefix
        obtain ⟨tail, rfl⟩ := hslash
        exact hne _ rfl rfl
      · exact hne

/-- A slash can be completed to a comment. -/
theorem readComment_mended (h : readComment c = .error fault) (hslash : c.current? = some '/') :
    ∃ text more, ∃ token : CommentToken, fault.IsBehind c text ∧ (∃ tail, text = '/' :: tail) ∧
      (text = ['/'] → startsComment c.rest = false) ∧ token.isMultiline = true ∧
      token.IsValid ∧ text ++ more = token.lexeme := by
  unfold readComment at h
  split at h
  · cases h
  · rename_i cs hrest
    split at h
    · cases h
    · rename_i hnone
      cases h
      refine ⟨c.rest, ['*', '/'], ⟨cs, true⟩, c.finish_consumes.isBehind, ⟨_, hrest⟩, ?_, rfl, ?_,
        ?_⟩
      · simp [hrest]
      · simpa [CommentToken.IsValid] using not_infix_of_beforeClosingMark?_eq_none hnone
      · simp [hrest, CommentToken.lexeme]
  · rename_i cs hline hstar hrest
    cases h
    refine ⟨['/'], ['*', '*', '/'], ⟨[], true⟩, (Cursor.past_current_consumes hslash).isBehind,
      ⟨[], rfl⟩, fun _ => ?_, rfl, by simp [CommentToken.IsValid], rfl⟩
    rw [hrest]
    refine startsComment_eq_false fun d hd => ?_
    obtain ⟨tail, rfl⟩ := List.head?_eq_some_iff.1 hd
    exact ⟨fun heq => hline tail (by rw [heq]), fun heq => hstar tail (by rw [heq])⟩
  · rename_i hother
    obtain ⟨tail, htail⟩ := Cursor.rest_eq_of_current? hslash
    exact absurd htail (hother tail)

theorem isBody_completed {quote : Char} (hquote : isQuote quote = true) (cs : List Char) :
    IsBody quote (quotedBody quote cs ++ ['x']) := by
  have hplain : IsBody quote ['x'] := by
    refine .plain (by decide) ?_ (.inr (by decide)) .nil
    rintro rfl
    exact absurd hquote (by decide)
  fun_induction quotedBody quote cs with
  | case1 => exact hplain
  | case2 => exact .escape .nil
  | case3 c cs ih => exact .escape ih
  | case4 => exact hplain
  | case5 c cs hlone hescape hends ih => exact .cons_plain hlone hescape hends ih

/-- A quote can be completed to a quoted text. -/
theorem readQuoted_mended {quote : Char} {cs : List Char} (hquote : isQuote quote = true)
    (hrest : c.rest = quote :: cs) (h : readQuoted quote c = .error fault) :
    ∃ text, ∃ token : QuotedToken, fault.IsBehind c text ∧ (∃ tail, text = quote :: tail) ∧
      token.IsValid ∧ token.quote = quote ∧ text ++ ['x', quote] = token.lexeme := by
  unfold readQuoted at h
  simp only [hrest, List.drop_one, List.tail_cons] at h
  split at h
  · cases h
  · cases h
    refine ⟨quote :: quotedBody quote cs, ⟨quote, quotedBody quote cs ++ ['x']⟩, ?_, ⟨_, rfl⟩,
      ⟨by simpa [isQuote, or_assoc] using hquote, isBody_completed hquote cs⟩, rfl, ?_⟩
    · refine Cursor.Consumes.isBehind (Cursor.past_consumes ?_)
      rw [hrest]
      exact List.cons_prefix_cons.2 ⟨rfl, quotedBody_prefix quote cs⟩
    · simp [QuotedToken.lexeme]

end Tokens

/-! ## Filler -/

section Filler

variable {c c' d : Cursor} {fault : Fault} {rest : List Char}

/-- Filler can be completed to filler. -/
theorem skipFiller_mended (h : skipFiller c = .error fault) :
    ∃ text more, fault.IsBehind c text ∧ text ≠ [] ∧ Stops text ∧
      ∀ {c' : Cursor} {rest : List Char}, c'.rest = text ++ (more ++ rest) → Gapless rest →
        rest.head? ≠ some '/' → skipFiller c' = .ok (c'.past (text ++ more)) := by
  have hstops : ∀ {gap text : List Char}, Blank gap → (∃ tail, text = '/' :: tail) →
      Stops (gap ++ text) := by
    rintro gap text hblank ⟨tail, rfl⟩
    exact Heads.append (fun d hd => isStop_of_isGap (hblank d hd)) (.cons (by decide) _)
  induction c using skipFiller.induct with
  | case1 c hc fault' hread =>
      rw [skipFiller_of_comment hc, hread] at h
      cases h
      have hgap := c.skipGaps_consumes
      have hblank := blank_takeWhile c.rest
      generalize c.rest.takeWhile isGap = gap at hgap hblank
      obtain ⟨text, more, token, hbehind, hslash, -, hmultiline, hvalid, hlexeme⟩ :=
        readComment_mended hread hc
      obtain ⟨tail, htail⟩ := hslash
      refine ⟨gap ++ text, more, hbehind.trans hgap, by simp [htail], hstops hblank ⟨tail, htail⟩,
        ?_⟩
      intro c' rest hrest hrestGap hrestSlash
      have hall : c'.rest = gap ++ (token.lexeme ++ rest) := by simp [hrest, ← hlexeme]
      have hat := Cursor.rest_past hall
      have hskip := skipGaps_eq hblank hall (gapless_lexeme token rest).1
      have hcurrent : c'.skipGaps.current? = some '/' := by
        rw [hskip, Cursor.current?, hat]
        exact (gapless_lexeme token rest).2
      have hcomment := readComment_eq hvalid (fun hmark => by simp [hmultiline] at hmark) hat
      have hlast := skipFiller_eq (.gap .nil) hrestGap hrestSlash
        (by rw [List.nil_append]; exact Cursor.rest_past hat)
      rw [skipFiller_of_comment hcurrent, hskip, hcomment]
      simp only [Except.bind, hlast]
      simp [Cursor.past_past, hlexeme]
  | case2 c hc token next hread ih =>
      rw [skipFiller_of_comment hc, hread] at h
      obtain ⟨text, more, hbehind, hne, hhead, hmended⟩ := ih h
      have hgap := c.skipGaps_consumes
      have hblank := blank_takeWhile c.rest
      generalize c.rest.takeWhile isGap = gap at hgap hblank
      have hcomment := readComment_consumes hread
      refine ⟨gap ++ (token.lexeme ++ text), more, (hbehind.trans hcomment).trans hgap, by simp [hne],
        hstops hblank ?_, ?_⟩
      · obtain ⟨tail, htail⟩ := List.head?_eq_some_iff.1 (gapless_lexeme token text).2
        exact ⟨tail, htail⟩
      intro c' rest hrest hrestGap hrestSlash
      have hall : c'.rest = gap ++ (token.lexeme ++ (text ++ (more ++ rest))) := by simp [hrest]
      have hat := Cursor.rest_past hall
      have hskip := skipGaps_eq hblank hall (gapless_lexeme token _).1
      have hcurrent : c'.skipGaps.current? = some '/' := by
        rw [hskip, Cursor.current?, hat]
        exact (gapless_lexeme token _).2
      have hline : token.isMultiline = false →
          text ++ (more ++ rest) = [] ∨ StartsWithBreak (text ++ (more ++ rest)) :=
        fun hmark => break_of_front hbehind.stands hne ((isValid_of_readComment hread).2 hmark) _
      rw [skipFiller_of_comment hcurrent, hskip, readComment_again hread hline hat]
      simp only [Except.bind, hmended (Cursor.rest_past hat) hrestGap hrestSlash]
      simp [Cursor.past_past]
  | case3 c hc =>
      rw [skipFiller_of_no_comment hc] at h
      cases h

/-- Where a mark stands that starts no comment, there is no filler. -/
theorem skipFiller_of_mark {mark : Char} (hgap : isGap mark = false) (hslash : mark ≠ '/')
    (h : c.rest = mark :: rest) : skipFiller c = .ok c := by
  have hread := skipFiller_eq (.gap .nil) (.cons hgap rest) (by simpa using hslash) h
  rwa [Cursor.past_nil] at hread

end Filler

/-! ## Entries -/

section Entries

variable {c c' d : Cursor} {fault : Fault} {rest : List Char}

theorem readValue_of_plain (h : Heads (fun e => isQuote e = false) c.rest) :
    readValue c = readBare c := by
  unfold readValue
  split
  · rename_i quote cs hrest
    rw [h quote (by rw [hrest]; rfl)]
    rfl
  · rfl

/-- Before a closing parenthesis, there is an empty value. -/
theorem readValue_of_close (h : c.rest = ')' :: rest) : readValue c = .ok ("", c) := by
  have hnone : c.rest.takeWhile isBareChar = [] := by
    rw [h]
    exact List.takeWhile_cons_of_neg (by decide)
  have hbare : readBare c = .ok ("", c) := by
    unfold readBare
    dsimp only
    rw [hnone, Cursor.past_nil, h]
    rfl
  rw [readValue_of_plain (by rw [h]; exact .cons (by decide) rest), hbare]

/-- An unquoted value is missed its end only where the source ends. -/
theorem isBehind_of_readBare (h : readBare c = .error fault) :
    fault.IsBehind c c.rest ∧ ∀ e ∈ c.rest, isBareChar e = true := by
  unfold readBare at h
  dsimp only at h
  split at h
  · rename_i hend
    cases h
    have hsplit := (Cursor.past_consumes (List.takeWhile_prefix isBareChar) (c := c)).rest_eq
    rw [List.isEmpty_iff.1 hend, List.append_nil] at hsplit
    refine ⟨?_, fun e he => List.takeWhile_eq_self_iff.1 hsplit.symm e he⟩
    rw [← hsplit]
    exact c.finish_consumes.isBehind
  · cases h

/-- At the cursor there are a value and filler, and behind them a closing parenthesis and the
text. -/
def ReadsValue (c : Cursor) (rest : List Char) : Prop :=
  ∃ value d e, readValue c = .ok (value, d) ∧ skipFiller d = .ok e ∧ e.rest = ')' :: rest

/-- An unquoted value can be ended by a line break, and closed behind it. -/
theorem readBare_mended (hgap : Gapless c.rest) (hquote : Heads (fun e => isQuote e = false) c.rest)
    (h : readBare c = .error fault) :
    fault.CanBeClosed c ReadsValue := by
  obtain ⟨hbehind, hplain⟩ := isBehind_of_readBare h
  refine ⟨c.rest, ['\n'], hbehind, fun rest => ⟨.inr ⟨')', rest, rfl, by decide, by decide⟩, ?_⟩⟩
  intro c' hc'
  by_cases hrest : c.rest = []
  · have hclose : c'.rest = ')' :: rest := by
      rw [hc', hrest]
      rfl
    exact ⟨_, _, _, readValue_of_close hclose,
      skipFiller_of_mark (by decide) (by decide) hclose, hclose⟩
  · rw [dropWhile_of_front hbehind.stands hrest hgap] at hc'
    have htake : c'.rest.takeWhile isBareChar = c.rest := by
      rw [hc', List.takeWhile_append_of_pos hplain, List.singleton_append,
        List.takeWhile_cons_of_neg (by decide), List.append_nil]
    have hat := Cursor.rest_past hc'
    have hbare : readBare c' = .ok (String.ofList (trim c.rest), c'.past c.rest) := by
      unfold readBare
      dsimp only
      rw [htake, hat]
      rfl
    have hquote' : Heads (fun e => isQuote e = false) c'.rest := by
      intro e he
      rw [hc', head_of_front hbehind.stands hrest] at he
      exact hquote e he
    have hskip := skipFiller_eq (.gap (.singleton (by decide))) (.cons (by decide) rest)
      (by simp) hat
    exact ⟨_, _, _, (readValue_of_plain hquote').trans hbare, hskip, Cursor.rest_past hat⟩

/-- A value can be completed to a value, and closed behind it. -/
theorem readValue_mended (hgap : Gapless c.rest) (h : readValue c = .error fault) :
    fault.CanBeClosed c ReadsValue := by
  unfold readValue at h
  split at h
  · rename_i quote cs hrest
    split at h
    · rename_i hquote
      obtain ⟨text, token, hbehind, ⟨tail, htail⟩, hvalid, rfl, hlexeme⟩ :=
        readQuoted_mended hquote hrest (map_eq_error_iff.1 h)
      refine ⟨text, ['x', token.quote], hbehind, fun rest => ⟨.inl (by simp [htail]), ?_⟩⟩
      intro c' hc'
      rw [dropWhile_of_front hbehind.stands (by simp [htail]) hgap, ← List.append_assoc,
        hlexeme] at hc'
      have hread := readValue_printed hvalid hc'
      exact ⟨_, _, _, hread, skipFiller_of_mark (by decide) (by decide) (Cursor.rest_past hc'),
        Cursor.rest_past hc'⟩
    · rename_i hquote
      refine readBare_mended hgap ?_ h
      rw [hrest]
      exact .cons (by simpa using hquote) _
  · rename_i hnil
    refine readBare_mended hgap ?_ h
    rw [hnil]
    exact .nil

/-- At the cursor there are filler, a value and filler, and behind them a closing parenthesis and
the text. -/
def ReadsAssigned (c : Cursor) (rest : List Char) : Prop :=
  ∃ atValue value next last, skipFiller c = .ok atValue ∧ readValue atValue = .ok (value, next) ∧
    skipFiller next = .ok last ∧ last.rest = ')' :: rest

/-- What stands behind an equals sign can be completed, and closed behind it. -/
def Fault.CanBeAssigned (fault : Fault) (c : Cursor) : Prop :=
  ∃ text more, fault.IsBehind c text ∧ ∀ {c' : Cursor} {rest : List Char},
    c'.rest = text ++ (more ++ ')' :: rest) → ReadsAssigned c' rest

section Assigned

variable {atValue next : Cursor} {value : String}

theorem canBeAssigned_of_filler (h : skipFiller c = .error fault) : fault.CanBeAssigned c := by
  obtain ⟨text, more, hbehind, -, -, hmended⟩ := skipFiller_mended h
  refine ⟨text, more, hbehind, fun {c' rest} hc' => ?_⟩
  have hclose : (c'.past (text ++ more)).rest = ')' :: rest :=
    Cursor.rest_past (by rw [hc', List.append_assoc])
  exact ⟨_, _, _, _, hmended hc' (.cons (by decide) rest) (by simp), readValue_of_close hclose,
    skipFiller_of_mark (by decide) (by decide) hclose, hclose⟩

theorem canBeAssigned_of_value (hfiller : skipFiller c = .ok atValue)
    (h : readValue atValue = .error fault) : fault.CanBeAssigned c := by
  obtain ⟨filler, hskipped⟩ := skipFiller_consumes hfiller
  obtain ⟨hgap, hslash⟩ := gapless_of_skipFiller hfiller
  obtain ⟨text, more, hbehind, hmended⟩ := readValue_mended hgap h
  refine ⟨filler ++ text, more, hbehind.trans hskipped, fun {c' rest} hc' => ?_⟩
  rw [List.append_assoc] at hc'
  obtain ⟨hresumes, hread⟩ := hmended rest
  have hagain := skipFiller_again hfiller hskipped hc'
    (hresumes.fillerEnds hbehind.stands hgap hslash)
  obtain ⟨value, d, e, hvalue, hlast, hclose⟩ := hread (c'.past filler).skipGaps
    (by rw [Cursor.skipGaps_rest, Cursor.rest_past hc'])
  exact ⟨_, _, _, _, hagain, hvalue, hlast, hclose⟩

theorem canBeAssigned_of_last (hfiller : skipFiller c = .ok atValue)
    (hvalue : readValue atValue = .ok (value, next)) (h : skipFiller next = .error fault) :
    fault.CanBeAssigned c := by
  obtain ⟨filler, hskipped⟩ := skipFiller_consumes hfiller
  obtain ⟨hgap, hslash⟩ := gapless_of_skipFiller hfiller
  obtain ⟨inner, hinner⟩ := readValue_consumes hvalue
  obtain ⟨text, more, hbehind, hne, -, hmended⟩ := skipFiller_mended h
  have hfrom := hbehind.trans hinner
  refine ⟨filler ++ (inner ++ text), more, hfrom.trans hskipped, fun {c' rest} hc' => ?_⟩
  have hall : c'.rest = filler ++ (inner ++ (text ++ (more ++ ')' :: rest))) := by simp [hc']
  have h1 := Cursor.rest_past hall
  have h2 := Cursor.rest_past h1
  have hends : FillerEnds atValue.rest (inner ++ (text ++ (more ++ ')' :: rest))) := by
    rw [← List.append_assoc]
    exact Resumes.fillerEnds (.inl (by simp [hne])) hfrom.stands hgap hslash
  have hgapless : Gapless (inner ++ (text ++ (more ++ ')' :: rest))) := by
    rw [← List.append_assoc, ← dropWhile_of_front hfrom.stands (by simp [hne]) hgap]
    exact gapless_dropWhile _
  have hagain := skipFiller_again hfiller hskipped hall hends
  rw [Cursor.skipGaps_past (by rw [h1]; exact hgapless)] at hagain
  have hvalueAgain := readValue_again hvalue hinner h1 fun e _ he => by
    rw [head_of_front hbehind.stands hne, he]
  exact ⟨_, _, _, _, hagain, hvalueAgain, hmended h2 (.cons (by decide) rest) (by simp),
    Cursor.rest_past (by rw [h2, List.append_assoc])⟩

end Assigned

theorem readAssignment_of_parts {atValue next last : Cursor} {value : String} {tail : List Char}
    (hrest : c.rest = '=' :: tail) (hfiller : skipFiller (c.past ['=']) = .ok atValue)
    (hvalue : readValue atValue = .ok (value, next)) (hlast : skipFiller next = .ok last) :
    readAssignment c = .ok (value, last) := by
  rw [readAssignment, if_pos (Cursor.current?_of_rest_eq hrest)]
  simp only [bind, Except.bind, hfiller, hvalue, hlast, pure, Except.pure]

/-- What stands behind the name of an attribute can be completed, and closed behind it. -/
theorem readAssignment_mended (h : readAssignment c = .error fault) :
    ∃ text more, fault.IsBehind c text ∧ (∃ tail, text = '=' :: tail) ∧
      ∀ {c' : Cursor} {rest : List Char}, c'.rest = text ++ (more ++ ')' :: rest) →
        ∃ value d, readAssignment c' = .ok (value, d) ∧ d.rest = ')' :: rest := by
  unfold readAssignment at h
  split at h
  · rename_i hequals
    have hassigned : fault.CanBeAssigned (c.past ['=']) := by
      rcases bind_eq_error_iff.1 h with hfiller | ⟨atValue, hfiller, h⟩
      · exact canBeAssigned_of_filler hfiller
      · rcases bind_eq_error_iff.1 h with hvalue | ⟨⟨value, next⟩, hvalue, h⟩
        · exact canBeAssigned_of_value hfiller hvalue
        · rcases bind_eq_error_iff.1 h with hlast | ⟨last, -, h⟩
          · exact canBeAssigned_of_last hfiller hvalue hlast
          · cases h
    obtain ⟨text, more, hbehind, hmended⟩ := hassigned
    refine ⟨['='] ++ text, more, hbehind.trans (Cursor.past_current_consumes hequals),
      ⟨text, rfl⟩, fun {c' rest} hc' => ?_⟩
    rw [List.append_assoc] at hc'
    obtain ⟨atValue, value, next, last, hfiller, hvalue, hlast, hclose⟩ :=
      hmended (Cursor.rest_past hc')
    exact ⟨value, last, readAssignment_of_parts hc' hfiller hvalue hlast, hclose⟩
  · cases h

/-- At the cursor there is an attribute, and behind it a closing parenthesis and the text. -/
def ReadsAttribute (c : Cursor) (rest : List Char) : Prop :=
  (∃ entry d, readAttribute c = .ok (entry, d) ∧ d.rest = ')' :: rest) ∧ readSuperCall? c = none

theorem readAttribute_of_parts {name : List Char} {next last : Cursor} {value : String}
    (hlexeme : NameClass.attribute.lexeme c.rest = name) (hne : name ≠ [])
    (hfiller : skipFiller (c.past name) = .ok next)
    (hvalue : readAssignment next = .ok (value, last)) :
    readAttribute c = .ok (⟨String.ofList name, value⟩, last) := by
  unfold readAttribute
  dsimp only
  rw [hlexeme, if_neg (by simpa using hne), hfiller]
  simp only [bind, Except.bind, hvalue, pure, Except.pure]

theorem readAssignment_of_close (h : c.rest = ')' :: rest) : readAssignment c = .ok ("", c) := by
  rw [readAssignment, if_neg]
  rw [Cursor.current?, h]
  simp

/-- A letter and a closing parenthesis are an attribute that is closed. -/
theorem readAttribute_of_letter (h : c.rest = 'b' :: ')' :: rest) :
    ReadsAttribute c rest := by
  have hall : c.rest = ['b'] ++ (')' :: rest) := h
  have hname : NameClass.attribute.IsName ['b'] := .inl ⟨'b', [], rfl, by decide, by simp⟩
  have hstops : Stops (')' :: rest) := .cons (by decide) rest
  have hlexeme : NameClass.attribute.lexeme c.rest = ['b'] := by
    rw [hall]
    exact lexeme_append hname (heads_of_stops hstops)
  have hat := Cursor.rest_past hall
  exact ⟨⟨_, _, readAttribute_of_parts hlexeme (by simp)
    (skipFiller_of_mark (by decide) (by decide) hat) (readAssignment_of_close hat), hat⟩,
    readSuperCall?_name hname hstops hall⟩

theorem readEntry_of_attribute (superAllowed : Bool) (hnone : readSuperCall? c = none)
    {entry : Attribute} (h : readAttribute c = .ok (entry, d)) :
    readEntry superAllowed c = .ok (.setting entry, d) := by
  unfold readEntry
  rw [hnone, ite_self, h]
  rfl

/-- What stands behind a name can be completed, and the name is read again. -/
theorem canBeClosed_of_name {name text : List Char} (more : List Char)
    (hname : NameClass.attribute.IsName name) (hfront : c.Consumes name d)
    (hbehind : fault.IsBehind d text) (hstops : ∀ rest, Stops (text ++ (more ++ ')' :: rest)))
    (hread : ∀ {c' : Cursor} {rest : List Char}, c'.rest = text ++ (more ++ ')' :: rest) →
      ∃ next value last, skipFiller c' = .ok next ∧ readAssignment next = .ok (value, last) ∧
        last.rest = ')' :: rest) :
    fault.CanBeClosed c ReadsAttribute := by
  have hne := ne_nil_of_isName hname
  have hgap : Gapless c.rest := by
    obtain ⟨first, tail, hfirst, hstart⟩ := head_of_isName hname
    rw [hfront.rest_eq, hfirst]
    exact .cons (isGap_of_isNameChar (isNameChar_of_isStart hstart)) _
  have hfrom := hbehind.trans hfront
  refine ⟨name ++ text, more, hfrom, fun rest => ⟨.inl (by simp [hne]), fun c' hc' => ?_⟩⟩
  rw [dropWhile_of_front hfrom.stands (by simp [hne]) hgap, List.append_assoc] at hc'
  have hlexeme : NameClass.attribute.lexeme c'.rest = name := by
    rw [hc']
    exact lexeme_append hname (heads_of_stops (hstops rest))
  obtain ⟨next, value, last, hfiller, hvalue, hclose⟩ := hread (Cursor.rest_past hc')
  exact ⟨⟨_, last, readAttribute_of_parts hlexeme hne hfiller hvalue, hclose⟩,
    readSuperCall?_name hname (hstops rest) hc'⟩

/-- An attribute can be completed to an attribute, and closed behind it. -/
theorem readAttribute_mended (h : readAttribute c = .error fault) :
    fault.CanBeClosed c ReadsAttribute := by
  unfold readAttribute at h
  dsimp only at h
  split at h
  · cases h
    refine ⟨[], ['\n', 'b'], (Cursor.Consumes.refl c).isBehind,
      fun rest => ⟨.inr ⟨'b', _, rfl, by decide, by decide⟩, ?_⟩⟩
    intro c' hc'
    exact readAttribute_of_letter hc'
  · rename_i hempty
    have hname := NameClass.lexeme_isName (by simpa using hempty)
    have hfront := Cursor.past_consumes (NameClass.attribute.lexeme_prefix c.rest)
    rcases bind_eq_error_iff.1 h with hfiller | ⟨next, hfiller, h⟩
    · obtain ⟨text, more, hbehind, hne, hstops, hmended⟩ := skipFiller_mended hfiller
      refine canBeClosed_of_name more hname hfront hbehind (fun rest e he => ?_)
        fun {c' rest} hc' => ?_
      · rw [head_of_front (List.prefix_refl text) hne] at he
        exact hstops e he
      · have hclose : (c'.past (text ++ more)).rest = ')' :: rest :=
          Cursor.rest_past (by rw [hc', List.append_assoc])
        exact ⟨_, _, _, hmended hc' (.cons (by decide) rest) (by simp),
          readAssignment_of_close hclose, hclose⟩
    · obtain ⟨filler, hskipped⟩ := skipFiller_consumes hfiller
      obtain ⟨hgap, hslash⟩ := gapless_of_skipFiller hfiller
      rcases bind_eq_error_iff.1 h with hvalue | ⟨⟨value, last⟩, -, h⟩
      · obtain ⟨text, more, hbehind, ⟨tail, htail⟩, hmended⟩ := readAssignment_mended hvalue
        refine canBeClosed_of_name more hname hfront (hbehind.trans hskipped) (fun rest => ?_)
          fun {c' rest} hc' => ?_
        · rw [List.append_assoc]
          cases filler with
          | nil =>
              rw [htail]
              exact .cons (by decide) _
          | cons e filler => exact .cons (stops_of_skipFiller hfiller hskipped e rfl) _
        · rw [List.append_assoc] at hc'
          have hat := Cursor.rest_past hc'
          have hagain := skipFiller_again hfiller hskipped hc'
            (Resumes.fillerEnds (.inl (by simp [htail])) hbehind.stands hgap hslash)
          rw [Cursor.skipGaps_past (by rw [hat, htail]; exact .cons (by decide) _)] at hagain
          obtain ⟨value, last, hread, hclose⟩ := hmended hat
          exact ⟨_, value, last, hagain, hread, hclose⟩
      · cases h

/-- An entry can be completed to an entry, and closed behind it. -/
theorem readEntry_mended {superAllowed : Bool} (h : readEntry superAllowed c = .error fault) :
    fault.CanBeClosed c fun c' rest =>
      ∃ entry d, readEntry superAllowed c' = .ok (entry, d) ∧ d.rest = ')' :: rest := by
  unfold readEntry at h
  split at h
  · rename_i call next hcall
    replace h := map_eq_error_iff.1 h
    split at hcall
    · rename_i hallowed
      obtain ⟨token, htoken, hnext⟩ := Option.map_eq_some_iff.1 hcall
      cases hnext
      have hfront := Cursor.past_consumes (SuperToken.lexeme_prefix htoken)
      obtain ⟨text, more, hbehind, hneText, -, hmended⟩ := skipFiller_mended h
      refine ⟨token.lexeme ++ text, more, hbehind.trans hfront,
        fun rest => ⟨.inl (by simp [token.lexeme_ne_nil]), ?_⟩⟩
      intro c' hc'
      have hpiece := piece_superCall token (text ++ (more ++ ')' :: rest))
      rw [List.append_assoc, hpiece.dropWhile token.lexeme_ne_nil] at hc'
      have hat := Cursor.rest_past hc'
      refine ⟨.superCall ⟨token.target.map String.ofList, c'.spanTo (c'.past token.lexeme)⟩,
        (c'.past token.lexeme).past (text ++ more), ?_,
        Cursor.rest_past (by rw [hat, List.append_assoc])⟩
      unfold readEntry
      rw [if_pos hallowed, readSuperCall?_printed (isValid_of_read? htoken) hc']
      simp only [hmended hat (.cons (by decide) rest) (by simp)]
      rfl
    · cases hcall
  · obtain ⟨text, more, hbehind, hmended⟩ := readAttribute_mended (map_eq_error_iff.1 h)
    refine ⟨text, more, hbehind, fun rest => ⟨(hmended rest).1, fun c' hc' => ?_⟩⟩
    obtain ⟨⟨entry, d, hread, hclose⟩, hnone⟩ := (hmended rest).2 c' hc'
    exact ⟨.setting entry, d, readEntry_of_attribute superAllowed hnone hread, hclose⟩

end Entries

/-! ## Attribute lists -/

section Lists

variable {c c' d : Cursor} {fault : Fault} {rest : List Char}

/-- At the cursor there are entries of a list, and behind its closing parenthesis there is the
text. -/
def ReadsEntries (superAllowed : Bool) (c : Cursor) (rest : List Char) : Prop :=
  ∃ entries d, readEntries superAllowed c = .ok (entries, d) ∧ d.rest = rest

theorem readsEntries_of_last {superAllowed : Bool} {entry : Entry} {next : Cursor}
    (hread : readEntry superAllowed c = .ok (entry, next)) (hclose : next.rest = ')' :: rest) :
    ReadsEntries superAllowed c rest := by
  have hcurrent : next.current? = some ')' := Cursor.current?_of_rest_eq hclose
  refine ⟨[entry], next.past [')'], ?_, Cursor.rest_past hclose⟩
  rw [readEntries_eq, hread]
  simp only [bind, Except.bind, hcurrent, if_true]

section Entry

variable {superAllowed : Bool} {entry : Entry} {next later : Cursor}

/-- Filler behind a comma can be completed, and a name and a closing parenthesis behind it. -/
theorem canBeClosed_of_filler (hgap : Gapless c.rest)
    (hread : readEntry superAllowed c = .ok (entry, next)) (hcomma : next.current? = some ',')
    (h : skipFiller (next.past [',']) = .error fault) :
    fault.CanBeClosed c (ReadsEntries superAllowed) := by
  obtain ⟨first, hfirst, -⟩ := readEntry_consumes hread
  have hfront := hfirst.trans (Cursor.past_current_consumes hcomma)
  obtain ⟨text, more, hbehind, -, -, hmended⟩ := skipFiller_mended h
  have hfrom := hbehind.trans hfront
  refine ⟨first ++ [','] ++ text, more ++ ['b'], hfrom, fun rest => ⟨.inl (by simp), ?_⟩⟩
  intro c' hc'
  rw [dropWhile_of_front hfrom.stands (by simp) hgap] at hc'
  have hall : c'.rest = first ++ ([','] ++ (text ++ (more ++ 'b' :: ')' :: rest))) := by
    simp [hc']
  have h1 := Cursor.rest_past hall
  have h2 := Cursor.rest_past h1
  have hletter : (((c'.past first).past [',']).past (text ++ more)).rest = 'b' :: ')' :: rest :=
    Cursor.rest_past (by rw [h2, List.append_assoc])
  obtain ⟨f, hf⟩ := exists_translates c c'
  obtain ⟨hagain, hcomma'⟩ := readEntry_before_mark hread hfirst hcomma (.inl rfl) hall hf
  obtain ⟨⟨last, d, hlast, hclose⟩, hnone⟩ := readAttribute_of_letter hletter
  obtain ⟨entries, e, hothers, hend⟩ := readsEntries_of_last
    (readEntry_of_attribute (superAllowed && (entry.moved f).superCall?.isNone) hnone hlast) hclose
  exact ⟨_, e, readEntries_of_comma hagain hcomma'
    (hmended h2 (.cons (by decide) _) (by simp)) hothers, hend⟩

/-- The entries behind a comma can be completed, and the one before it is read again. -/
theorem canBeClosed_of_comma (hgap : Gapless c.rest)
    (hread : readEntry superAllowed c = .ok (entry, next)) (hcomma : next.current? = some ',')
    (hfiller : skipFiller (next.past [',']) = .ok later)
    (h : fault.CanBeClosed later (ReadsEntries (superAllowed && entry.superCall?.isNone))) :
    fault.CanBeClosed c (ReadsEntries superAllowed) := by
  obtain ⟨text, more, hbehind, hmended⟩ := h
  obtain ⟨hgapLater, hslashLater⟩ := gapless_of_skipFiller hfiller
  obtain ⟨first, hfirst, hne⟩ := readEntry_consumes hread
  obtain ⟨filler, hskipped⟩ := skipFiller_consumes hfiller
  have hfront := hfirst.trans ((Cursor.past_current_consumes hcomma).trans hskipped)
  have hfrom := hbehind.trans hfront
  refine ⟨_, more, hfrom, fun rest => ⟨.inl (by simp [hne]), fun c' hc' => ?_⟩⟩
  rw [dropWhile_of_front hfrom.stands (by simp [hne]) hgap] at hc'
  have hall : c'.rest = first ++ ([','] ++ (filler ++ (text ++ (more ++ ')' :: rest)))) := by
    simp [hc']
  have h1 := Cursor.rest_past hall
  have h2 := Cursor.rest_past h1
  have h3 := Cursor.rest_past h2
  obtain ⟨f, hf⟩ := exists_translates c c'
  obtain ⟨hagain, hcomma'⟩ := readEntry_before_mark hread hfirst hcomma (.inl rfl) hall hf
  obtain ⟨hresumes, hothers⟩ := hmended rest
  have hskip := skipFiller_again hfiller hskipped h2
    (hresumes.fillerEnds hbehind.stands hgapLater hslashLater)
  obtain ⟨entries, d, hentries, hend⟩ := hothers _ (by rw [Cursor.skipGaps_rest, h3])
  rw [← @Entry.moved_isNone f] at hentries
  exact ⟨_, d, readEntries_of_comma hagain hcomma' hskip hentries, hend⟩

/-- An entry that nothing stands behind as it should can be closed there. -/
theorem canBeClosed_of_entry {kind : ParseErrorKind} (hgap : Gapless c.rest)
    (hread : readEntry superAllowed c = .ok (entry, next)) (hcomma : next.current? ≠ some ',')
    (hclose : next.current? ≠ some ')') :
    Fault.CanBeClosed ⟨next.offset, kind⟩ c (ReadsEntries superAllowed) := by
  obtain ⟨first, hfirst, hne⟩ := readEntry_consumes hread
  have hfrom : Fault.IsBehind ⟨next.offset, kind⟩ c first := hfirst.isBehind
  refine ⟨first, ['\n'], hfrom, fun rest => ⟨.inl hne, fun c' hc' => ?_⟩⟩
  rw [dropWhile_of_front hfrom.stands hne hgap] at hc'
  have hends : EntryEnds next.rest ('\n' :: ')' :: rest) := by
    refine .of_break (fun d hd => ?_) rest
    rcases hd with rfl | rfl
    · exact hcomma
    · exact hclose
  obtain ⟨f, hf⟩ := exists_translates c c'
  have hagain := readEntry_again hread hfirst hc' hends hf
  exact readsEntries_of_last hagain (by rw [Cursor.skipGaps_rest, Cursor.rest_past hc']; rfl)

end Entry

/-- The entries of a list can be completed to entries with a closing parenthesis. -/
theorem readEntries_mended {superAllowed : Bool} (hgap : Gapless c.rest)
    (h : readEntries superAllowed c = .error fault) :
    fault.CanBeClosed c (ReadsEntries superAllowed) := by
  induction superAllowed, c using readEntries.induct generalizing fault with
  | case1 superAllowed c fault' hread =>
      rw [readEntries_eq, hread] at h
      cases h
      obtain ⟨text, more, hbehind, hmended⟩ := readEntry_mended hread
      refine ⟨text, more, hbehind, fun rest => ⟨(hmended rest).1, fun c' hc' => ?_⟩⟩
      obtain ⟨entry, d, hentry, hclose⟩ := (hmended rest).2 c' hc'
      exact readsEntries_of_last hentry hclose
  | case2 superAllowed c entry next hread hclose =>
      rw [readEntries_eq, hread] at h
      simp [bind, Except.bind, hclose] at h
  | case3 superAllowed c entry next hread hclose hcomma fault' hfiller =>
      rw [readEntries_eq, hread] at h
      simp only [bind, Except.bind, if_neg hclose, if_pos hcomma, hfiller] at h
      cases h
      exact canBeClosed_of_filler hgap hread hcomma hfiller
  | case4 superAllowed c entry next hread hclose hcomma later hfiller ih =>
      rw [readEntries_eq, hread] at h
      simp only [bind, Except.bind, if_neg hclose, if_pos hcomma, hfiller] at h
      have hgapLater := (gapless_of_skipFiller hfiller).1
      refine canBeClosed_of_comma hgap hread hcomma hfiller (ih hgapLater ?_)
      split at h
      · rename_i hothers
        cases h
        exact hothers
      · cases h
  | case5 superAllowed c entry next hread hclose hcomma =>
      rw [readEntries_eq, hread] at h
      simp only [bind, Except.bind, if_neg hclose, if_neg hcomma] at h
      cases h
      exact canBeClosed_of_entry hgap hread hcomma hclose

/-- An attribute list can be completed. -/
theorem readAttributeGroup_mended (hopen : c.current? = some '(')
    (h : readAttributeGroup c = .error fault) :
    ∃ text more, fault.IsBehind c text ∧ (∃ tail, text = '(' :: tail) ∧
      ∀ {c' : Cursor} {rest : List Char}, c'.rest = text ++ (more ++ rest) →
        ∃ group d, readAttributeGroup c' = .ok (group, d) ∧ d.rest = rest := by
  have hfront := Cursor.past_current_consumes hopen
  unfold readAttributeGroup at h
  rcases bind_eq_error_iff.1 h with hfiller | ⟨inner, hfiller, h⟩
  · obtain ⟨text, more, hbehind, -, -, hmended⟩ := skipFiller_mended hfiller
    refine ⟨['('] ++ text, more ++ [')'], hbehind.trans hfront, ⟨text, rfl⟩, ?_⟩
    intro c' rest hc'
    have hall : c'.rest = ['('] ++ (text ++ (more ++ ')' :: rest)) := by simp [hc']
    have h1 := Cursor.rest_past hall
    have hclose : ((c'.past ['(']).past (text ++ more)).rest = [')'] ++ rest :=
      Cursor.rest_past (by rw [h1, List.append_assoc]; rfl)
    have hcurrent : ((c'.past ['(']).past (text ++ more)).current? = some ')' :=
      Cursor.current?_of_rest_eq hclose
    unfold readAttributeGroup
    rw [hmended h1 (.cons (by decide) rest) (by simp)]
    simp only [bind, Except.bind, hcurrent, if_true]
    exact ⟨_, _, rfl, Cursor.rest_past hclose⟩
  · obtain ⟨filler, hskipped⟩ := skipFiller_consumes hfiller
    obtain ⟨hgap, hslash⟩ := gapless_of_skipFiller hfiller
    split at h
    · cases h
    · rcases bind_eq_error_iff.1 h with hentries | ⟨⟨entries, last⟩, -, h⟩
      · obtain ⟨text, more, hbehind, hmended⟩ := readEntries_mended hgap hentries
        refine ⟨['('] ++ (filler ++ text), more ++ [')'], (hbehind.trans hskipped).trans hfront,
          ⟨_, rfl⟩, ?_⟩
        intro c' rest hc'
        have hall : c'.rest = ['('] ++ (filler ++ (text ++ (more ++ ')' :: rest))) := by simp [hc']
        have h1 := Cursor.rest_past hall
        obtain ⟨hresumes, hread⟩ := hmended rest
        have hskip := skipFiller_again hfiller hskipped h1
          (hresumes.fillerEnds hbehind.stands hgap hslash)
        obtain ⟨entries, d, hentries, hend⟩ := hread ((c'.past ['(']).past filler).skipGaps
          (by rw [Cursor.skipGaps_rest, Cursor.rest_past h1])
        have hcurrent := head_ne_of_readEntries hentries
        unfold readAttributeGroup
        rw [hskip]
        simp only [bind, Except.bind, if_neg hcurrent, hentries]
        exact ⟨_, _, rfl, hend⟩
      · cases h

end Lists

/-! ## Headings -/

section Headings

variable {c c' d : Cursor} {fault : Fault} {rest : List Char}

/-- What a heading fails on is its start or its attribute list. -/
theorem readHeading_error (h : readHeading c = .error fault) :
    fault.offset = c.offset ∨ ∃ front next, readMarked readFront c = .ok (front, next) ∧
      (front.2.1.isSome = true ∨ front.2.2.isSome = true) ∧ next.current? = some '(' ∧
        readAttributeGroup next = .error fault := by
  unfold readHeading at h
  dsimp only at h
  split at h
  · cases h
    exact .inl rfl
  · rename_i hsome
    replace h := map_eq_error_iff.1 h
    rw [Bool.and_eq_true, Option.isNone_iff_eq_none, Option.isNone_iff_eq_none] at hsome
    refine .inr ⟨_, _, readMarked_eq_ok_iff.2 ⟨readFront_eq _, rfl⟩, ?_, ?_⟩
    · rw [Option.isSome_iff_ne_none, Option.isSome_iff_ne_none]
      exact Decidable.not_and_iff_not_or_not.1 hsome
    · unfold readAttributes at h
      split at h
      · rename_i hopen
        exact ⟨hopen, map_eq_error_iff.1 h⟩
      · cases h

/-- What stands before the attribute list of a heading is read again, and the heading with it. -/
theorem readHeading_of_front {front : Bool × Option String × Option (List (Option String))}
    {next last : Cursor} {group : AttributeGroup} (h : readMarked readFront c = .ok (front, next))
    (hknown : front.2.1.isSome = true ∨ front.2.2.isSome = true)
    (hopen : next.current? = some '(') (hgroup : readAttributeGroup next = .ok (group, last)) :
    readHeading c =
      .ok (⟨front.1, front.2.1, front.2.2, some group⟩, last.skipGaps) := by
  obtain ⟨hfront, hmark⟩ := readMarked_eq_ok_iff.1 h
  refine readHeading_eq_ok_iff.2 ⟨readMarked_eq_ok_iff.2 ⟨?_, hmark⟩, hknown⟩
  have hattributes : readAttributes next = .ok (some group, last.skipGaps) := by
    rw [readAttributes, if_pos hopen, hgroup]
    rfl
  simp only [readBoth, hfront, bind, Except.bind, hattributes, pure, Except.pure]

end Headings

/-! ## Items -/

/-- A text that an item starts with, and by which it is told what comes. -/
structure ItemStart (text : List Char) : Prop where
  ne_nil : text ≠ []
  gapless : Gapless text
  head : Heads (fun d => isStop d = true ∨ d.isAlpha = true) text
  slash : text ≠ ['/']

section Items

variable {c c' d : Cursor} {fault : Fault} {text rest : List Char}

theorem ItemStart.cons {first : Char} (hgap : isGap first = false)
    (hstart : isStop first = true ∨ first.isAlpha = true) {tail : List Char}
    (hslash : first :: tail ≠ ['/']) : ItemStart (first :: tail) :=
  ⟨by simp, .cons hgap _, .cons hstart _, hslash⟩

/-- What is in front of an item is the same whatever comes behind the start of the item. -/
theorem ItemStart.continues {gap : List Char} (h : ItemStart text) (hgap : Blank gap)
    (rest rest' : List Char) : Continues (gap ++ (text ++ rest)) (gap ++ (text ++ rest')) := by
  obtain ⟨first, tail, htext⟩ := List.exists_cons_of_ne_nil h.ne_nil
  have hdrop : (gap ++ text).dropWhile isGap = first :: tail := by
    rw [dropWhile_of_blank hgap, dropWhile_of_gapless h.gapless, htext]
  have hcontinues := @Continues.of_token rest rest' _ _ _ hdrop (h.head first (by rw [htext]; rfl))
    fun hlone => absurd (htext.trans hlone) h.slash
  simpa using hcontinues

/-- What stands before the mistake can be completed to an item, and the item is complete before
whatever opens no braces. -/
def Fault.CanBeItem (fault : Fault) (c : Cursor) (inBraces : Bool) : Prop :=
  ∃ text more, fault.IsBehind c text ∧ ItemStart text ∧ ∀ {c' : Cursor} {rest : List Char},
    (rest.dropWhile isGap).head? ≠ some '\x7b' → c'.rest = text ++ (more ++ rest) →
      ∃ node d, readItem inBraces c' = .ok (.leaf node, d) ∧
        d.skipGaps.rest = rest.dropWhile isGap

/-- An element can be completed to one without braces, unless the mistake is its start. -/
theorem readElement_mended (inBraces : Bool) (hquote : Heads (fun e => isQuote e = false) c.rest)
    (hcomment : startsComment c.rest = false) (h : readElement c = .error fault) :
    fault.offset = c.offset ∨ fault.CanBeItem c inBraces := by
  refine (readHeading_error (map_eq_error_iff.1 h)).imp id ?_
  rintro ⟨⟨isHelper, tag, names⟩, next, hread, hknown, hopen, hgroup⟩
  obtain ⟨hfront, hmark⟩ := readMarked_eq_ok_iff.1 hread
  obtain ⟨core, rest, hne, hagain⟩ := readFront_again hfront hknown
  obtain ⟨all, hall, hmarked⟩ := hagain.marked hne
  obtain ⟨text, more, hbehind, ⟨tail, htail⟩, hmended⟩ := readAttributeGroup_mended hopen hgroup
  have hgap := (c.past all).skipGaps_consumes
  have hblank := blank_takeWhile (c.past all).rest
  rw [← hmarked.last] at hgap
  generalize (c.past all).rest.takeWhile isGap = gap at hgap hblank
  have hrest : rest = gap ++ next.rest := by
    rw [← hgap.rest_eq, Cursor.rest_past hmarked.rest_eq]
  obtain ⟨behind, hbehindEq⟩ := Cursor.rest_eq_of_current? hopen
  have hconsumes := (Cursor.past_consumes_of_rest rest hmarked.rest_eq).trans hgap
  refine ⟨all ++ gap ++ text, more, hbehind.trans hconsumes, ?_, ?_⟩
  · obtain ⟨first, others, hfirst⟩ := List.exists_cons_of_ne_nil hall
    rw [hfirst, List.cons_append, List.cons_append]
    refine .cons (hmarked.gapless first (by rw [hfirst]; rfl))
      (hmarked.head first (by rw [hfirst]; rfl)) ?_
    simp [htail]
  · intro c' rest' hbrace hc'
    have hc'' : c'.rest = all ++ (gap ++ (text ++ (more ++ rest'))) := by simp [hc']
    have hcontinues : Continues rest (gap ++ (text ++ (more ++ rest'))) := by
      rw [hrest, hbehindEq, htail]
      exact .of_mark hblank (by decide) (by decide) (by decide) _ _
    obtain ⟨f, hf⟩ := exists_translates c c'
    have hreadAgain := hmarked.again (f := f)
      (by rw [hc'', hmarked.toPiece.dropWhile hall]) hcontinues.behind fun _ => ⟨hcontinues, hf⟩
    have hat := Cursor.rest_past hc''
    have hskip := skipGaps_eq hblank hat (by rw [htail]; exact .cons (by decide) _)
    have hopen' : ((c'.past all).past gap).current? = some '(' := by
      rw [Cursor.current?, Cursor.rest_past hat, htail]
      rfl
    rw [hskip] at hreadAgain
    obtain ⟨group, last, hgroupAgain, hlast⟩ := hmended (Cursor.rest_past hat)
    have hheading := readHeading_of_front hreadAgain hknown hopen' hgroupAgain
    have hbrace' : ¬ last.skipGaps.current? = some '\x7b' := by
      rw [Cursor.current?, Cursor.skipGaps_rest, hlast]
      exact hbrace
    rw [readItem_heading_again inBraces hmarked hall hquote hcomment hc'' hcontinues, readElement,
      hheading]
    simp only [Except.map, if_neg hbrace']
    exact ⟨_, _, rfl, by rw [Cursor.skipGaps_skipGaps, Cursor.skipGaps_rest, hlast]⟩

/-- An item can be completed to an item, unless the mistake is its start. -/
theorem readItem_mended {inBraces : Bool} (h : readItem inBraces c = .error fault) :
    fault.offset = c.offset ∨ fault.CanBeItem c inBraces := by
  unfold readItem at h
  split at h
  · rename_i hnil
    refine readElement_mended inBraces ?_ ?_ h <;> rw [hnil]
    · exact .nil
    · rfl
  · rename_i first tail hrest
    split at h
    · rename_i hquote
      obtain ⟨text, token, hbehind, ⟨others, htext⟩, hvalid, rfl, hlexeme⟩ :=
        readQuoted_mended hquote hrest (map_eq_error_iff.1 h)
      refine .inr ⟨text, ['x', token.quote], hbehind, ?_, ?_⟩
      · have hpiece := piece_quoted hquote []
        rw [QuotedToken.lexeme] at hpiece
        rw [htext]
        refine .cons (hpiece.gapless _ rfl) (hpiece.head _ rfl) fun hslash => ?_
        rw [(List.cons.inj hslash).1] at hquote
        exact absurd hquote (by decide)
      · intro c' rest _ hc'
        rw [← List.append_assoc, hlexeme] at hc'
        have hfirst : c'.rest = token.quote :: (token.body ++ [token.quote] ++ rest) := by
          rw [hc', QuotedToken.lexeme]
          rfl
        rw [readItem_quoted inBraces hfirst hquote, readQuoted_eq hvalid hc']
        exact ⟨_, _, rfl, by rw [Cursor.skipGaps_rest, Cursor.rest_past hc']⟩
    · rename_i hquote
      split at h
      · rename_i hcomment
        have hslash : c.current? = some '/' := by
          obtain ⟨others, hothers⟩ := head_of_startsComment hcomment
          rw [Cursor.current?, hothers]
          rfl
        obtain ⟨text, more, token, hbehind, ⟨others, htext⟩, hlone, hmultiline, hvalid, hlexeme⟩ :=
          readComment_mended (map_eq_error_iff.1 h) hslash
        refine .inr ⟨text, more, hbehind, ?_, ?_⟩
        · rw [htext] at hlone ⊢
          refine .cons (by decide) (.inl (by decide)) fun heq => ?_
          rw [hlone heq] at hcomment
          cases hcomment
        · intro c' rest _ hc'
          rw [← List.append_assoc, hlexeme] at hc'
          have hstart : startsComment c'.rest = true := by
            rw [hc']
            exact startsComment_lexeme_append token rest
          rw [readItem_comment inBraces hstart,
            readComment_eq hvalid (fun hmark => by simp [hmultiline] at hmark) hc']
          exact ⟨_, _, rfl, by rw [Cursor.skipGaps_rest, Cursor.rest_past hc']⟩
      · rename_i hcomment
        split at h
        · cases h
        · refine readElement_mended inBraces ?_ (by simpa using hcomment) h
          rw [hrest]
          exact .cons (by simpa using hquote) _

end Items

end BemMarkup.Document

import BemMarkup.Proofs.Document.Lookahead

/-!
# Moving what has been read

A text that has been read can be cut out and put somewhere else.  If it is read as the same
thing there, all values are the same, and all places are moved by the distance of the two
cursors.  This module defines what it is to be moved, and shows that lists in parentheses are
read again with all that is in them.

A list in parentheses carries all that its readers look at, so nothing has to be known of what
is behind it.  Inside it, filler is taken up to the next token, which need not be where it was
before: if there is a gap where a token has been, filler goes on over the gap.  So what is read
again ends where the gap behind it ends.

## Main definitions

* `Node.moved`: a node with all of its places changed.
* `Translates`: the change of places that takes one cursor to another.

## Main results

* `skipFiller_again`, `readEntry_again`: filler and entries.
* `readAttributeGroup_again`: attribute lists, whatever comes behind them.
-/

namespace BemMarkup.Document

open Text

/-! ## Moving places -/

/-- A span with its offset changed.  Its text stays. -/
def Span.moved (f : Nat → Nat) (span : Span) : Span := ⟨f span.offset, span.text⟩

/-- A super call at a changed offset. -/
def SuperCall.moved (f : Nat → Nat) (call : SuperCall) : SuperCall :=
  ⟨call.target, call.span.moved f⟩

/-- An entry of an attribute list with its offset changed, if it has one. -/
def Entry.moved (f : Nat → Nat) : Entry → Entry
  | .superCall call => .superCall (call.moved f)
  | .setting entry => .setting entry

/-- An attribute list with its own offset and that of its super call changed. -/
def AttributeGroup.moved (f : Nat → Nat) (group : AttributeGroup) : AttributeGroup :=
  ⟨group.superCall.map (SuperCall.moved f), group.attributes, group.span.moved f⟩

/-- A heading with the offsets in its attribute list changed. -/
def Heading.moved (f : Nat → Nat) (heading : Heading) : Heading :=
  ⟨heading.isHelper, heading.tag, heading.names,
    heading.attributes.map (AttributeGroup.moved f)⟩

mutual

/-- A node with the offsets of all records in it changed. -/
def Node.moved (f : Nat → Nat) : Node → Node
  | .element ⟨heading, content, span⟩ =>
    match content with
    | none => .element ⟨heading.moved f, none, span.moved f⟩
    | some nodes => .element ⟨heading.moved f, some (Node.movedAll f nodes), span.moved f⟩
  | .literal l => .literal ⟨l.value, l.isMultiline, l.span.moved f⟩
  | .comment c => .comment ⟨c.value, c.isMultiline, c.span.moved f⟩
  | .superCall call => .superCall (call.moved f)

/-- Nodes with the offsets of all records in them changed. -/
def Node.movedAll (f : Nat → Nat) : List Node → List Node
  | [] => []
  | node :: nodes => node.moved f :: Node.movedAll f nodes

end

/-- The change of offsets that takes every place behind one cursor to the place as far behind
another one. -/
def Translates (f : Nat → Nat) (c c' : Cursor) : Prop := ∀ n, f (c.offset + n) = c'.offset + n

section Moving

variable {f : Nat → Nat} {c c' d d' : Cursor} {text : List Char}

theorem Translates.past (h : Translates f c c') (text : List Char) :
    Translates f (c.past text) (c'.past text) := by
  intro n
  rw [Cursor.past_offset, Cursor.past_offset, Nat.add_assoc, h, Nat.add_assoc]

theorem Translates.offset (h : Translates f c c') : f c.offset = c'.offset := h 0

/-- Two spans over the same text differ in their places alone. -/
theorem Translates.spanTo (h : Translates f c c') (htext : c.Consumes text d)
    (htext' : c'.Consumes text d') : c'.spanTo d' = (c.spanTo d).moved f := by
  rw [htext.spanTo_eq, htext'.spanTo_eq, Span.moved, h.offset]

end Moving

/-! ## Filler -/

section Filler

variable {c c' d : Cursor} {text rest : List Char}

theorem Cursor.skipGaps_past (h : Gapless (c.past text).rest) :
    (c.past text).skipGaps = c.past text :=
  skipGaps_of_gapless h

/-- A gap before a token may be skipped at once, or when the token is missing behind it. -/
theorem skipGaps_past_skipGaps (h : c.rest = text ++ rest) (hgap : Gapless text) :
    (c.skipGaps.past text).skipGaps = (c.past text).skipGaps := by
  cases text with
  | nil => rw [Cursor.past_nil, Cursor.past_nil, Cursor.skipGaps_skipGaps]
  | cons x text =>
      rw [@skipGaps_of_gapless c]
      rw [h]
      exact .cons (hgap x rfl) _

/-- Filler goes up to a token. -/
theorem gapless_of_skipFiller (h : skipFiller c = .ok d) :
    Gapless d.rest ∧ d.rest.head? ≠ some '/' := by
  induction c using skipFiller.induct with
  | case1 c hc fault hread =>
      rw [skipFiller_of_comment hc, hread] at h
      cases h
  | case2 c hc token next hread ih =>
      rw [skipFiller_of_comment hc, hread] at h
      exact ih h
  | case3 c hc =>
      rw [skipFiller_of_no_comment hc] at h
      cases h
      exact ⟨by rw [Cursor.skipGaps_rest]; exact gapless_dropWhile _, hc⟩

/-- Filler starts with a gap or a slash. -/
theorem stops_of_skipFiller (h : skipFiller c = .ok d) (htext : c.Consumes text d) :
    Stops text := by
  intro e he
  obtain ⟨tail, rfl⟩ := List.head?_eq_some_iff.1 he
  cases hgap : isGap e with
  | true => exact isStop_of_isGap hgap
  | false =>
      have hskip : c.skipGaps = c := by
        refine skipGaps_of_gapless ?_
        rw [htext.rest_eq]
        exact .cons hgap _
      by_cases hslash : e = '/'
      · rw [hslash]
        decide
      · have hcurrent : c.skipGaps.current? ≠ some '/' := by
          rw [hskip, Cursor.current?, htext.rest_eq]
          simpa using hslash
        rw [skipFiller_of_no_comment hcurrent, hskip] at h
        cases h
        exact absurd (htext.text_unique (.refl c)) (by simp)

theorem gapless_lexeme (token : CommentToken) (rest : List Char) :
    Gapless (token.lexeme ++ rest) ∧ (token.lexeme ++ rest).head? = some '/' := by
  unfold CommentToken.lexeme
  split <;> exact ⟨.cons (by decide) _, rfl⟩

/-- A line ends before a text if it does so before its start. -/
theorem break_of_front {front behind : List Char} (hfront : front <+: behind) (hne : front ≠ [])
    (h : behind = [] ∨ StartsWithBreak behind) (rest : List Char) :
    front ++ rest = [] ∨ StartsWithBreak (front ++ rest) := by
  obtain ⟨others, rfl⟩ := hfront
  cases front with
  | nil => exact absurd rfl hne
  | cons e front =>
      rcases h with hnil | ⟨e', tail, hcons, hbreak⟩
      · cases hnil
      · exact .inr ⟨e, front ++ rest, rfl, (List.cons.inj hcons).1 ▸ hbreak⟩

/-- A comment is read again where its line ends. -/
theorem readComment_again {token : CommentToken} (h : readComment c = .ok (token, d))
    (hline : token.isMultiline = false → rest = [] ∨ StartsWithBreak rest)
    (hrest : c'.rest = token.lexeme ++ rest) :
    readComment c' = .ok (token, c'.past token.lexeme) :=
  readComment_eq (isValid_of_readComment h).1 hline hrest

/-- Filler is moved over again, together with a gap behind it. -/
theorem skipFiller_again (h : skipFiller c = .ok d) (htext : c.Consumes text d)
    (hrest : c'.rest = text ++ rest) (hends : FillerEnds d.rest rest) :
    skipFiller c' = .ok (c'.past text).skipGaps := by
  induction c using skipFiller.induct generalizing c' text with
  | case1 c hc fault hread =>
      rw [skipFiller_of_comment hc, hread] at h
      cases h
  | case2 c hc token next hread ih =>
      rw [skipFiller_of_comment hc, hread] at h
      obtain ⟨others, hothers⟩ := skipFiller_consumes h
      cases htext.text_unique
        (c.skipGaps_consumes.trans ((readComment_consumes hread).trans hothers))
      have hlexeme := gapless_lexeme token (others ++ rest)
      have hall : c'.rest =
          c.rest.takeWhile isGap ++ (token.lexeme ++ (others ++ rest)) := by simp [hrest]
      have hskip := skipGaps_eq (blank_takeWhile _) hall hlexeme.1
      have hat := Cursor.rest_past hall
      have hcurrent : c'.skipGaps.current? = some '/' := by
        rw [hskip, Cursor.current?, hat]
        exact hlexeme.2
      have hline : token.isMultiline = false →
          others ++ rest = [] ∨ StartsWithBreak (others ++ rest) := by
        intro hmark
        have hnext := (isValid_of_readComment hread).2 hmark
        rw [hothers.rest_eq] at hnext
        cases others with
        | nil =>
            refine hends.line ?_
            rcases hnext with hnil | ⟨e, tail, hcons, hbreak⟩
            · exact hnil
            · have hgap := (gapless_of_skipFiller h).1 e
                (by rw [← List.nil_append d.rest, hcons]; rfl)
              rcases hbreak with rfl | rfl <;> cases hgap
        | cons e others => exact break_of_front (List.prefix_append _ _) (by simp) hnext rest
      rw [skipFiller_of_comment hcurrent, hskip, readComment_again hread hline hat]
      have hlast := ih h hothers (Cursor.rest_past hat)
      simpa [Except.bind, Cursor.past_past] using hlast
  | case3 c hc =>
      rw [skipFiller_of_no_comment hc] at h
      cases h
      cases htext.text_unique c.skipGaps_consumes
      have hskip := skipGaps_of_blank (blank_takeWhile c.rest) hrest
      have hcurrent : c'.skipGaps.current? ≠ some '/' := by
        rw [hskip, Cursor.current?, Cursor.skipGaps_rest, Cursor.rest_past hrest]
        exact hends.slash
      rw [skipFiller_of_no_comment hcurrent, hskip]

end Filler

/-! ## Entries -/

section Entries

variable {c c' d : Cursor} {text rest : List Char}

/-- A quoted text is read again, whatever comes behind it. -/
theorem readQuoted_again {quote : Char} {cs : List Char} {token : QuotedToken}
    (hquote : isQuote quote = true) (hcons : c.rest = quote :: cs)
    (h : readQuoted quote c = .ok (token, d)) (hrest : c'.rest = token.lexeme ++ rest) :
    readQuoted quote c' = .ok (token, c'.past token.lexeme) := by
  obtain ⟨hvalid, rfl⟩ := isValid_of_readQuoted hquote hcons h
  exact readQuoted_eq hvalid hrest

/-- A bare value ends before a character that it cannot hold. -/
theorem head_of_readBare {value : String} (h : readBare c = .ok (value, d)) :
    ∃ e tail, d.rest = e :: tail ∧ isBareChar e = false := by
  have hrest : d.rest = c.rest.dropWhile isBareChar := by
    have hconsumes := (readBare_consumes h).rest_eq
    have hsplit := List.takeWhile_append_dropWhile (p := isBareChar) (l := c.rest)
    exact (List.append_cancel_left (hsplit.trans hconsumes)).symm
  unfold readBare at h
  dsimp only at h
  split at h
  · cases h
  · rename_i hne
    cases h
    cases hcons : c.rest.dropWhile isBareChar with
    | nil =>
        rw [hrest, hcons] at hne
        simp at hne
    | cons e tail =>
        refine ⟨e, tail, by rw [hrest, hcons], ?_⟩
        simpa [hcons] using List.head?_dropWhile_not isBareChar c.rest

theorem readBare_again {value : String} (h : readBare c = .ok (value, d))
    (htext : c.Consumes text d) (hrest : c'.rest = text ++ rest)
    (hends : ∃ e tail, rest = e :: tail ∧ isBareChar e = false) :
    readBare c' = .ok (value, c'.past text) := by
  obtain ⟨e, tail, rfl, he⟩ := hends
  cases htext.text_unique (readBare_consumes h)
  have htake : c'.rest.takeWhile isBareChar = c.rest.takeWhile isBareChar := by
    rw [hrest,
      List.takeWhile_append_of_pos (fun x hx => List.all_eq_true.1 List.all_takeWhile x hx),
      List.takeWhile_cons_of_neg (by simp [he]), List.append_nil]
  unfold readBare at h ⊢
  dsimp only at h ⊢
  rw [htake, Cursor.rest_past hrest]
  split at h
  · cases h
  · cases h
    rfl

/-- A value is read again.  If it is a bare one, it must end before the same character. -/
theorem readValue_again {value : String} (h : readValue c = .ok (value, d))
    (htext : c.Consumes text d) (hrest : c'.rest = text ++ rest)
    (hends : ∀ e, isBareChar e = false → d.rest.head? = some e → rest.head? = some e) :
    readValue c' = .ok (value, c'.past text) := by
  have hbare : ∀ {value}, readBare c = .ok (value, d) →
      (∀ quote tail, c.rest = quote :: tail → isQuote quote = false) →
      readValue c' = .ok (value, c'.past text) := by
    intro value hread hquote
    obtain ⟨e, tail, hd, he⟩ := head_of_readBare hread
    obtain ⟨tail', rfl⟩ := List.head?_eq_some_iff.1 (hends e he (by rw [hd]; rfl))
    have hagain := readBare_again hread htext hrest ⟨e, tail', rfl, he⟩
    unfold readValue
    split
    · rename_i quote cs hcons
      have hfirst : isQuote quote = false := by
        rw [hrest] at hcons
        have hc := htext.rest_eq
        rw [hd] at hc
        cases text with
        | nil => exact hquote quote tail (by rw [hc, (List.cons.inj hcons).1]; rfl)
        | cons x text => exact hquote quote _ (by rw [hc, ← (List.cons.inj hcons).1]; rfl)
      rw [hfirst]
      exact hagain
    · exact hagain
  unfold readValue at h
  split at h
  · rename_i quote cs hcons
    split at h
    · rename_i hquote
      obtain ⟨⟨token, next⟩, htoken, h⟩ := map_eq_ok_iff.1 h
      cases h
      cases htext.text_unique (readQuoted_consumes hcons htoken)
      have hfirst : c'.rest = quote :: (token.body ++ [token.quote] ++ rest) := by
        rw [hrest, QuotedToken.lexeme, (isValid_of_readQuoted hquote hcons htoken).2]
        rfl
      unfold readValue
      rw [hfirst]
      simp only [if_pos hquote, readQuoted_again hquote hcons htoken hrest]
      rfl
    · rename_i hquote
      refine hbare h fun other tail hother => ?_
      rw [hcons] at hother
      rw [← (List.cons.inj hother).1]
      simpa using hquote
  · rename_i hnil
    exact hbare h fun other tail hother => by rw [hnil] at hother; cases hother

/-- What ends a bare value stands behind it again. -/
theorem head_behind_value {next : Cursor} {filler : List Char} {e : Char}
    (h : skipFiller next = .ok d) (hfiller : next.Consumes filler d)
    (hends : EntryEnds d.rest rest) (he : isBareChar e = false)
    (hnext : next.rest.head? = some e) : (filler ++ rest).head? = some e := by
  rw [hfiller.rest_eq] at hnext
  cases filler with
  | cons x filler => exact hnext
  | nil =>
      have hgap : isGap e = false := (gapless_of_skipFiller h).1 e hnext
      have hclose : e = ',' ∨ e = ')' := by
        simp only [isBareChar, Bool.not_eq_false', Bool.or_eq_true, beq_iff_eq] at he
        rcases he with (hbreak | hcomma) | hclose
        · rw [isGap_of_isBreak hbreak] at hgap
          cases hgap
        · exact .inl hcomma
        · exact .inr hclose
      exact hends.close e hclose hnext

/-- A value is no filler, even where it is empty. -/
theorem fillerEnds_of_readValue {next : Cursor} {value : String} {filler : List Char}
    (h : readValue c = .ok (value, next)) (htext : c.Consumes text next)
    (hgap : Gapless c.rest) (hslash : c.rest.head? ≠ some '/')
    (hnext : skipFiller next = .ok d) (hfiller : next.Consumes filler d)
    (hends : EntryEnds d.rest rest) :
    FillerEnds c.rest (text ++ (filler ++ rest)) ∧ Gapless (text ++ (filler ++ rest)) := by
  obtain ⟨e, tail, tail', hc, hbehind⟩ : ∃ e tail tail', c.rest = e :: tail ∧
      text ++ (filler ++ rest) = e :: tail' := by
    cases text with
    | cons x text => exact ⟨x, _, _, htext.rest_eq, rfl⟩
    | nil =>
        have hsame : next = c := by rw [htext.eq_past, Cursor.past_nil]
        rw [hsame] at h hnext hfiller
        obtain ⟨e, tail, hc, he⟩ : ∃ e tail, c.rest = e :: tail ∧ isBareChar e = false := by
          unfold readValue at h
          split at h
          · rename_i quote cs hcons
            split at h
            · obtain ⟨⟨token, last⟩, htoken, h⟩ := map_eq_ok_iff.1 h
              cases h
              have hnil := (readQuoted_consumes hcons htoken).text_unique (.refl _)
              exact absurd hnil token.lexeme_ne_nil
            · exact head_of_readBare h
          · exact head_of_readBare h
        obtain ⟨tail', htail'⟩ := List.head?_eq_some_iff.1
          (head_behind_value hnext hfiller hends he (by rw [hc]; rfl))
        exact ⟨e, tail, tail', hc, htail'⟩
  rw [hc] at hgap hslash
  rw [hc, hbehind]
  exact ⟨.of_head (hgap e rfl) (fun heq => hslash (by rw [heq]; rfl)) _ _, .cons (hgap e rfl) _⟩

theorem readAssignment_cases {value : String} (h : readAssignment c = .ok (value, d)) :
    (c.current? ≠ some '=' ∧ value = "" ∧ d = c) ∨
      ∃ atValue next, c.current? = some '=' ∧ skipFiller (c.past ['=']) = .ok atValue ∧
        readValue atValue = .ok (value, next) ∧ skipFiller next = .ok d := by
  unfold readAssignment at h
  split at h
  · rename_i hequals
    obtain ⟨atValue, hfiller, h⟩ := bind_eq_ok_iff.1 h
    obtain ⟨⟨value', next⟩, hvalue, h⟩ := bind_eq_ok_iff.1 h
    obtain ⟨last, hlast, h⟩ := bind_eq_ok_iff.1 h
    cases h
    exact .inr ⟨atValue, next, hequals, hfiller, hvalue, hlast⟩
  · rename_i hequals
    cases h
    exact .inl ⟨hequals, rfl, rfl⟩

/-- What stands behind the name of an attribute is read again. -/
theorem readAssignment_again {value : String} (h : readAssignment c = .ok (value, d))
    (htext : c.Consumes text d) (hgap : Gapless c'.rest)
    (hrest : c'.rest = (text ++ rest).dropWhile isGap) (hends : EntryEnds d.rest rest) :
    readAssignment c' = .ok (value, (c'.past text).skipGaps) := by
  rcases readAssignment_cases h with
    ⟨hequals, rfl, rfl⟩ | ⟨atValue, next, hequals, hfiller, hvalue, hlast⟩
  · cases htext.text_unique (.refl d)
    have hcurrent : ¬ c'.current? = some '=' := by
      rw [Cursor.current?, hrest]
      exact hends.equals
    rw [readAssignment, if_neg hcurrent, Cursor.past_nil, skipGaps_of_gapless hgap]
  · obtain ⟨before, hbefore⟩ := skipFiller_consumes hfiller
    obtain ⟨inner, hinner⟩ := readValue_consumes hvalue
    obtain ⟨after, hafter⟩ := skipFiller_consumes hlast
    cases htext.text_unique ((Cursor.past_current_consumes hequals).trans
      (hbefore.trans (hinner.trans hafter)))
    have hall : c'.rest = ['='] ++ (before ++ (inner ++ (after ++ rest))) := by
      simpa [show isGap '=' = false from rfl] using hrest
    have hcurrent : c'.current? = some '=' := Cursor.current?_of_rest_eq hall
    have hat := gapless_of_skipFiller hfiller
    obtain ⟨hvalueEnds, hvalueGap⟩ :=
      fillerEnds_of_readValue hvalue hinner hat.1 hat.2 hlast hafter hends
    have h1 := Cursor.rest_past hall
    have h2 := Cursor.rest_past h1
    have h3 := Cursor.rest_past h2
    have hvalueAgain := readValue_again hvalue hinner h2 fun e he hnext =>
      head_behind_value hlast hafter hends he hnext
    have hagain := skipFiller_again hlast hafter h3 hends.toFillerEnds
    rw [readAssignment, if_pos hcurrent, skipFiller_again hfiller hbefore h1 hvalueEnds,
      Cursor.skipGaps_past (by rw [h2]; exact hvalueGap)]
    simp only [bind, Except.bind, hvalueAgain, hagain, pure,
      Except.pure]
    simp [Cursor.past_past]

/-- An assignment that is written starts with its equals sign. -/
theorem head_of_readAssignment {value : String} (h : readAssignment c = .ok (value, d))
    (htext : c.Consumes text d) : text = [] ∧ d = c ∨ ∃ tail, text = '=' :: tail := by
  rcases readAssignment_cases h with
    ⟨-, rfl, rfl⟩ | ⟨atValue, next, hequals, hfiller, hvalue, hlast⟩
  · exact .inl ⟨htext.text_unique (.refl d), rfl⟩
  · obtain ⟨before, hbefore⟩ := skipFiller_consumes hfiller
    obtain ⟨inner, hinner⟩ := readValue_consumes hvalue
    obtain ⟨after, hafter⟩ := skipFiller_consumes hlast
    exact .inr ⟨_, htext.text_unique ((Cursor.past_current_consumes hequals).trans
      (hbefore.trans (hinner.trans hafter)))⟩

/-- An attribute is read again, and no super call is read in its place. -/
theorem readAttribute_again {entry : Attribute} (h : readAttribute c = .ok (entry, d))
    (htext : c.Consumes text d) (hrest : c'.rest = text ++ rest) (hends : EntryEnds d.rest rest) :
    readAttribute c' = .ok (entry, (c'.past text).skipGaps) ∧ readSuperCall? c' = none := by
  unfold readAttribute at h
  dsimp only at h
  split at h
  · cases h
  · rename_i hne
    have hname := NameClass.lexeme_isName (by simpa using hne)
    obtain ⟨next, hfiller, h⟩ := bind_eq_ok_iff.1 h
    obtain ⟨⟨value, last⟩, hvalue, h⟩ := bind_eq_ok_iff.1 h
    cases h
    obtain ⟨filler, hskipped⟩ := skipFiller_consumes hfiller
    obtain ⟨setting, hsetting⟩ := readAssignment_consumes hvalue
    cases htext.text_unique ((Cursor.past_consumes (NameClass.lexeme_prefix _ _)).trans
      (hskipped.trans hsetting))
    have hstart := stops_of_skipFiller hfiller hskipped
    generalize NameClass.attribute.lexeme c.rest = name at *
    have hall : c'.rest = name ++ (filler ++ (setting ++ rest)) := by simp [hrest]
    have h1 := Cursor.rest_past hall
    have h2 := Cursor.rest_past h1
    obtain ⟨hsettingStops, hsettingEnds, hsettingGap⟩ : Stops (setting ++ rest) ∧
        FillerEnds next.rest (setting ++ rest) ∧ Gapless setting := by
      rcases head_of_readAssignment hvalue hsetting with ⟨rfl, hsame⟩ | ⟨tail, rfl⟩
      · rw [← hsame]
        exact ⟨hends.stops, hends.toFillerEnds, .nil⟩
      · rw [hsetting.rest_eq]
        exact ⟨.cons (by decide) _, .of_head (by decide) (by decide) _ _, .cons (by decide) _⟩
    have hstops : Stops (filler ++ (setting ++ rest)) := by
      cases filler with
      | nil => exact hsettingStops
      | cons x filler => exact .cons (hstart x rfl) _
    have hlexeme : NameClass.attribute.lexeme c'.rest = name := by
      rw [hall]
      exact lexeme_append hname (heads_of_stops hstops)
    have hgap : Gapless ((c'.past name).past filler).skipGaps.rest := by
      rw [Cursor.skipGaps_rest]
      exact gapless_dropWhile _
    have hassignment := readAssignment_again hvalue hsetting hgap
      (by rw [Cursor.skipGaps_rest, h2]) hends
    refine ⟨?_, readSuperCall?_name hname hstops hall⟩
    unfold readAttribute
    dsimp only
    rw [hlexeme, if_neg hne, skipFiller_again hfiller hskipped h1 hsettingEnds]
    simp only [bind, Except.bind, hassignment, pure, Except.pure]
    rw [skipGaps_past_skipGaps h2 hsettingGap, Cursor.past_past, Cursor.past_past]

variable {f : Nat → Nat} {superAllowed : Bool}

/-- An entry is read again, together with the filler behind it. -/
theorem readEntry_again {entry : Entry} (h : readEntry superAllowed c = .ok (entry, d))
    (htext : c.Consumes text d) (hrest : c'.rest = text ++ rest) (hends : EntryEnds d.rest rest)
    (hf : Translates f c c') :
    readEntry superAllowed c' = .ok (entry.moved f, (c'.past text).skipGaps) := by
  unfold readEntry at h
  split at h
  · rename_i call next hcall
    obtain ⟨last, hfiller, h⟩ := map_eq_ok_iff.1 h
    cases h
    split at hcall
    · rename_i hallowed
      obtain ⟨token, htoken, hnext⟩ := Option.map_eq_some_iff.1 hcall
      cases hnext
      have hconsumes := Cursor.past_consumes (SuperToken.lexeme_prefix htoken)
      obtain ⟨filler, hskipped⟩ := skipFiller_consumes hfiller
      cases htext.text_unique (hconsumes.trans hskipped)
      have hall : c'.rest = token.lexeme ++ (filler ++ rest) := by simp [hrest]
      have h1 := Cursor.rest_past hall
      have hagain := readSuperCall?_printed (isValid_of_read? htoken) hall
      rw [hf.spanTo hconsumes (Cursor.past_consumes_of_rest _ hall)] at hagain
      unfold readEntry
      rw [if_pos hallowed, hagain]
      simp only [skipFiller_again hfiller hskipped h1 hends.toFillerEnds, Cursor.past_past]
      rfl
    · cases hcall
  · obtain ⟨⟨setting, last⟩, hsetting, h⟩ := map_eq_ok_iff.1 h
    cases h
    obtain ⟨hagain, hnone⟩ := readAttribute_again hsetting htext hrest hends
    unfold readEntry
    rw [hnone, ite_self, hagain]
    rfl

end Entries

/-! ## Attribute lists -/

section Lists

variable {c c' d : Cursor} {text rest : List Char} {f : Nat → Nat} {superAllowed : Bool}

theorem ofEntries_moved (f : Nat → Nat) (entries : List Entry) (span : Span) :
    AttributeGroup.ofEntries (entries.map (Entry.moved f)) (span.moved f) =
      (AttributeGroup.ofEntries entries span).moved f := by
  have hcall : (entries.map (Entry.moved f)).findSome? Entry.superCall? =
      (entries.findSome? Entry.superCall?).map (SuperCall.moved f) := by
    induction entries with
    | nil => rfl
    | cons entry entries ih =>
        cases entry with
        | superCall call => rfl
        | setting entry => exact ih
  have hsettings : (entries.map (Entry.moved f)).filterMap Entry.setting? =
      entries.filterMap Entry.setting? := by
    rw [List.filterMap_map]
    refine List.filterMap_congr fun entry _ => ?_
    cases entry <;> rfl
  rw [AttributeGroup.ofEntries, hcall, hsettings]
  rfl

/-- An entry starts with a character of a name. -/
theorem head_of_readEntry {entry : Entry} (h : readEntry superAllowed c = .ok (entry, d)) :
    ∃ e tail, c.rest = e :: tail ∧ isNameChar e = true := by
  unfold readEntry at h
  split at h
  · rename_i call next hcall
    split at hcall
    · obtain ⟨token, htoken, -⟩ := Option.map_eq_some_iff.1 hcall
      obtain ⟨x, cs, hlexeme, -⟩ := token.lexeme_start
      obtain ⟨tail, htail⟩ := SuperToken.lexeme_prefix htoken
      exact ⟨'s', _, by rw [← htail, hlexeme]; rfl, by decide⟩
    · cases hcall
  · obtain ⟨⟨setting, last⟩, hsetting, -⟩ := map_eq_ok_iff.1 h
    unfold readAttribute at hsetting
    dsimp only at hsetting
    split at hsetting
    · cases hsetting
    · rename_i hne
      obtain ⟨x, cs, hname, hx⟩ := head_of_isName (NameClass.lexeme_isName (by simpa using hne))
      obtain ⟨tail, htail⟩ := NameClass.attribute.lexeme_prefix c.rest
      exact ⟨x, cs ++ tail, by rw [← htail, hname]; rfl, isNameChar_of_isStart hx⟩

/-- Entries do not start with a closing parenthesis. -/
theorem head_ne_of_readEntries {entries : List Entry}
    (h : readEntries superAllowed c = .ok (entries, d)) : ¬ c.current? = some ')' := by
  rw [readEntries_eq] at h
  obtain ⟨⟨entry, next⟩, hread, -⟩ := bind_eq_ok_iff.1 h
  obtain ⟨e, tail, hc, he⟩ := head_of_readEntry hread
  rw [Cursor.current?, hc]
  rintro heq
  cases heq
  exact absurd he (by decide)

/-- Filler ends before entries. -/
theorem fillerEnds_of_readEntries {entries : List Entry}
    (h : readEntries superAllowed c = .ok (entries, d)) (htext : c.Consumes text d)
    (rest : List Char) : FillerEnds c.rest (text ++ rest) ∧ Gapless (text ++ rest) := by
  obtain ⟨front, hfront, -⟩ := readEntries_laid h
  cases htext.text_unique hfront
  rw [readEntries_eq] at h
  obtain ⟨⟨entry, next⟩, hread, -⟩ := bind_eq_ok_iff.1 h
  obtain ⟨e, tail, hc, he⟩ := head_of_readEntry hread
  obtain ⟨tail', htail'⟩ : ∃ tail', front ++ [')'] ++ rest = e :: tail' := by
    have hsplit := htext.rest_eq
    rw [hc] at hsplit
    cases front with
    | nil => exact ⟨rest, by rw [(List.cons.inj hsplit).1]; rfl⟩
    | cons x front => exact ⟨_, by rw [(List.cons.inj hsplit).1]; rfl⟩
  have hslash : e ≠ '/' := by
    rintro rfl
    exact absurd he (by decide)
  rw [hc, htail']
  exact ⟨.of_head (isGap_of_isNameChar he) hslash _ _, .cons (isGap_of_isNameChar he) _⟩

theorem Entry.moved_isNone (entry : Entry) :
    (entry.moved f).superCall?.isNone = entry.superCall?.isNone := by
  cases entry <;> rfl

/-- An entry is read again before a comma or a closing parenthesis, whatever comes behind that. -/
theorem readEntry_before_mark {entry : Entry} {next : Cursor} {mark : Char}
    (h : readEntry superAllowed c = .ok (entry, next)) (htext : c.Consumes text next)
    (hcurrent : next.current? = some mark) (hmark : mark = ',' ∨ mark = ')')
    (hrest : c'.rest = text ++ mark :: rest) (hf : Translates f c c') :
    readEntry superAllowed c' = .ok (entry.moved f, c'.past text) ∧
      (c'.past text).current? = some mark := by
  obtain ⟨tail, htail⟩ := Cursor.rest_eq_of_current? hcurrent
  have hat := Cursor.rest_past hrest
  have hgap : isGap mark = false := by rcases hmark with rfl | rfl <;> decide
  have hends : EntryEnds next.rest (mark :: rest) := by
    rw [htail]
    exact .of_head hmark tail rest
  have hagain := readEntry_again h htext hrest hends hf
  rw [Cursor.skipGaps_past (by rw [hat]; exact .cons hgap rest)] at hagain
  exact ⟨hagain, Cursor.current?_of_rest_eq hat⟩

theorem readEntries_of_comma {superAllowed : Bool} {entry : Entry} {next later last : Cursor}
    {entries : List Entry} (hread : readEntry superAllowed c = .ok (entry, next))
    (hcomma : next.current? = some ',') (hfiller : skipFiller (next.past [',']) = .ok later)
    (hothers : readEntries (superAllowed && entry.superCall?.isNone) later = .ok (entries, last)) :
    readEntries superAllowed c = .ok (entry :: entries, last) := by
  have hclose : ¬ next.current? = some ')' := by
    rw [hcomma]
    decide
  rw [readEntries_eq, hread]
  simp only [bind, Except.bind, if_neg hclose, if_pos hcomma, hfiller, hothers]

/-- The entries of a list are read again, up to the closing parenthesis. -/
theorem readEntries_again {entries : List Entry}
    (h : readEntries superAllowed c = .ok (entries, d)) (htext : c.Consumes text d)
    (hrest : c'.rest = text ++ rest) (hf : Translates f c c') :
    readEntries superAllowed c' = .ok (entries.map (Entry.moved f), c'.past text) := by
  induction superAllowed, c using readEntries.induct generalizing entries d c' text with
  | case1 superAllowed c fault hread =>
      rw [readEntries_eq, hread] at h
      cases h
  | case2 superAllowed c entry next hread hclose =>
      rw [readEntries_eq, hread] at h
      simp only [bind, Except.bind, hclose, if_true] at h
      cases h
      obtain ⟨first, hfirst, -⟩ := readEntry_consumes hread
      cases htext.text_unique (hfirst.trans (Cursor.past_current_consumes hclose))
      have hall : c'.rest = first ++ (')' :: rest) := by simp [hrest]
      obtain ⟨hagain, hcurrent⟩ := readEntry_before_mark hread hfirst hclose (.inr rfl) hall hf
      rw [readEntries_eq, hagain]
      simp only [bind, Except.bind, hcurrent, if_true, Cursor.past_past]
      rfl
  | case3 superAllowed c entry next hread hclose hcomma fault hfiller =>
      rw [readEntries_eq, hread] at h
      simp [bind, Except.bind, hcomma, hfiller] at h
  | case4 superAllowed c entry next hread hclose hcomma later hfiller ih =>
      rw [readEntries_eq, hread] at h
      simp only [bind, Except.bind, if_neg hclose, if_pos hcomma, hfiller] at h
      split at h
      · cases h
      · rename_i r hr
        cases h
        obtain ⟨first, hfirst, -⟩ := readEntry_consumes hread
        obtain ⟨filler, hskipped⟩ := skipFiller_consumes hfiller
        obtain ⟨others, hothers⟩ := readEntries_consumes hr
        cases htext.text_unique (hfirst.trans ((Cursor.past_current_consumes hcomma).trans
          (hskipped.trans hothers)))
        have hall : c'.rest = first ++ ([','] ++ (filler ++ (others ++ rest))) := by simp [hrest]
        have h1 := Cursor.rest_past hall
        have h2 := Cursor.rest_past h1
        have h3 := Cursor.rest_past h2
        obtain ⟨hagain, hcurrent⟩ := readEntry_before_mark hread hfirst hcomma (.inl rfl) hall hf
        obtain ⟨hothersEnds, hothersGap⟩ : FillerEnds later.rest (others ++ rest) ∧
            Gapless (others ++ rest) := fillerEnds_of_readEntries hr hothers rest
        have hlater : Translates f later (((c'.past first).past [',']).past filler) := by
          rw [hskipped.eq_past, hfirst.eq_past]
          exact ((hf.past first).past [',']).past filler
        have hskip := skipFiller_again hfiller hskipped h2 hothersEnds
        rw [Cursor.skipGaps_past (by rw [h3]; exact hothersGap)] at hskip
        have hothersAgain := ih hr hothers h3 hlater
        rw [← @Entry.moved_isNone f] at hothersAgain
        rw [readEntries_of_comma hagain hcurrent hskip hothersAgain]
        simp [Cursor.past_past]
  | case5 superAllowed c entry next hread hclose hcomma =>
      rw [readEntries_eq, hread] at h
      simp [bind, Except.bind, hclose, hcomma] at h

/-- An attribute list is read again, whatever comes behind it. -/
theorem readAttributeGroup_again {group : AttributeGroup} (hopen : c.current? = some '(')
    (h : readAttributeGroup c = .ok (group, d)) (htext : c.Consumes text d)
    (hrest : c'.rest = text ++ rest) (hf : Translates f c c') :
    readAttributeGroup c' = .ok (group.moved f, c'.past text) := by
  have hspan := hf.spanTo htext (Cursor.past_consumes_of_rest rest hrest)
  obtain ⟨inner, hfiller, h⟩ := bind_eq_ok_iff.1 h
  obtain ⟨filler, hskipped⟩ := skipFiller_consumes hfiller
  have hfront := (Cursor.past_current_consumes hopen).trans hskipped
  -- the opening parenthesis and the filler behind it are moved over again
  have hinner : ∀ behind, c'.rest = ['('] ++ filler ++ behind → FillerEnds inner.rest behind →
      Gapless behind → skipFiller (c'.past ['(']) = .ok (c'.past (['('] ++ filler)) := by
    intro behind hall hends hgap
    have h1 : (c'.past ['(']).rest = filler ++ behind := Cursor.rest_past (by simp [hall])
    rw [skipFiller_again hfiller hskipped h1 hends,
      Cursor.skipGaps_past (by rw [Cursor.rest_past h1]; exact hgap), Cursor.past_past]
  split at h
  · rename_i hclose
    cases h
    cases htext.text_unique (hfront.trans (Cursor.past_current_consumes hclose))
    obtain ⟨tail, htail⟩ := Cursor.rest_eq_of_current? hclose
    have hall : c'.rest = ['('] ++ filler ++ ([')'] ++ rest) := by simp [hrest]
    have hends : FillerEnds inner.rest ([')'] ++ rest) := by
      rw [htail]
      exact .of_head (by decide) (by decide) tail rest
    have hcurrent : (c'.past (['('] ++ filler)).current? = some ')' :=
      Cursor.current?_of_rest_eq (Cursor.rest_past hall)
    unfold readAttributeGroup
    rw [hinner _ hall hends (.cons (by decide) _)]
    simp only [bind, Except.bind, hcurrent, if_true, Cursor.past_past, hspan]
    rfl
  · rename_i hclose
    obtain ⟨⟨entries, last⟩, hentries, h⟩ := bind_eq_ok_iff.1 h
    cases h
    obtain ⟨text, htext'⟩ := readEntries_consumes hentries
    cases htext.text_unique (hfront.trans htext')
    have hall : c'.rest = ['('] ++ filler ++ (text ++ rest) := by simp [hrest]
    have hat := Cursor.rest_past hall
    obtain ⟨hends, hgap⟩ := fillerEnds_of_readEntries hentries htext' rest
    have htranslates : Translates f inner (c'.past (['('] ++ filler)) := by
      rw [hfront.eq_past]
      exact hf.past _
    have hagain := readEntries_again hentries htext' hat htranslates
    have hcurrent := head_ne_of_readEntries hagain
    have hgroup := ofEntries_moved f entries (c.spanTo d)
    rw [← hspan] at hgroup
    unfold readAttributeGroup
    rw [hinner _ hall hends hgap]
    simp only [bind, Except.bind, if_neg hcurrent, hagain, Cursor.past_past]
    rw [AttributeGroup.ofEntries, AttributeGroup.ofEntries] at hgroup
    rw [hgroup]

end Lists

end BemMarkup.Document

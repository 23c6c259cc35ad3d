import BemMarkup.Proofs.Document.Tokens

/-!
# Reading the heading of a draft

The parts of a heading are read one after the other, and each reader goes on to the start of
the next token.  What a part leaves to the next one is therefore told by the first character
behind the gap, and the lemmas here ask for this character and nothing else.

What is read is compared with the meaning that the draft itself gives to its parts.  There are two
bridges, one for the values of quoted texts (`QuotedToken.value_eq_meaning`) and one for the slots
of name lists (`nameSlot_getD`).

A heading without an attribute list has no closing character of its own.  `Ends` collects
what must not come behind it.

## Main results

* `readEntry_printed`, `readEntries_printed`, `readAttributes_printed`: attribute lists.
* `readSlots_printed`, `readNames_printed`: name lists.
* `readHeading_printed`: headings.
-/

namespace BemMarkup.Document

open Text

/-! ## Entries -/

/-- What comes behind an entry of an attribute list. -/
def EndsEntry (rest : List Char) : Prop := ∃ d tail, rest = d :: tail ∧ (d = ',' ∨ d = ')')

section Entries

variable {c : Cursor} {rest : List Char}

theorem EndsEntry.gapless (h : EndsEntry rest) : Gapless rest := by
  obtain ⟨d, tail, rfl, rfl | rfl⟩ := h <;> exact .cons (by decide) tail

theorem EndsEntry.stops (h : EndsEntry rest) : Stops rest := by
  obtain ⟨d, tail, rfl, rfl | rfl⟩ := h <;> exact .cons (by decide) tail

theorem EndsEntry.head_ne (h : EndsEntry rest) :
    rest.head? ≠ some '/' ∧ rest.head? ≠ some '=' := by
  obtain ⟨d, tail, rfl, rfl | rfl⟩ := h <;> simp

theorem QuotedToken.IsValid.gapless {token : QuotedToken} (h : token.IsValid)
    (rest : List Char) : Gapless (token.lexeme ++ rest) ∧
      (token.lexeme ++ rest).head? ≠ some '/' := by
  rw [QuotedToken.lexeme, List.cons_append]
  rcases h.quote with hquote | hquote | hquote <;> rw [hquote] <;>
    exact ⟨.cons (by decide) _, by simp⟩

theorem readValue_printed {token : QuotedToken} (hvalid : token.IsValid)
    (h : c.rest = token.lexeme ++ rest) :
    readValue c = .ok (token.meaning, c.past token.lexeme) := by
  have hread := readQuoted_eq hvalid h
  rw [QuotedToken.lexeme, List.cons_append] at h
  unfold readValue
  rw [h, ← token.value_eq_meaning]
  simp only [hvalid.isQuote, if_true, hread]
  rfl

theorem readAssignment_printed {before after : List Char} {token : QuotedToken}
    (hbefore : IsFiller before) (hvalid : token.IsValid) (hafter : IsFiller after)
    (hends : EndsEntry rest)
    (h : c.rest = ['='] ++ (before ++ (token.lexeme ++ (after ++ rest)))) :
    readAssignment c =
      .ok (token.meaning, c.past (['='] ++ (before ++ (token.lexeme ++ after)))) := by
  have hequals : c.current? = some '=' := by simp [Cursor.current?, h]
  have hvalue := hvalid.gapless (after ++ rest)
  have h1 := Cursor.rest_past h
  have h2 := Cursor.rest_past h1
  have h3 := Cursor.rest_past h2
  have hskip := skipFiller_eq hafter hends.gapless hends.head_ne.1 h3
  rw [readAssignment, if_pos hequals, skipFiller_eq hbefore hvalue.1 hvalue.2 h1]
  simp only [bind, Except.bind, readValue_printed hvalid h2, hskip, pure, Except.pure]
  simp only [Cursor.past_past, List.append_assoc]

/-- An attribute is read up to the filler behind its name. -/
theorem readAttribute_printed {name filler : List Char} {value : String} {last : Cursor}
    (hname : NameClass.attribute.IsName name) (hfiller : IsFiller filler)
    (hgapless : Gapless rest) (hslash : rest.head? ≠ some '/') (hstops : Stops rest)
    (h : c.rest = name ++ (filler ++ rest))
    (hvalue : readAssignment (c.past (name ++ filler)) = .ok (value, last)) :
    readAttribute c = .ok (⟨String.ofList name, value⟩, last) := by
  have hlexeme : NameClass.attribute.lexeme c.rest = name := by
    rw [h]
    exact lexeme_append hname (heads_of_stops (stops_behind_filler hfiller hstops))
  have hne : name.isEmpty = false := by simpa using ne_nil_of_isName hname
  unfold readAttribute
  dsimp only
  rw [hlexeme, hne, skipFiller_eq hfiller hgapless hslash (Cursor.rest_past h), Cursor.past_past]
  simp only [bind, Except.bind, hvalue, pure, Except.pure]
  rfl

/-- The entry that a draft is read as, without its place. -/
def EntryDraft.entry : EntryDraft → Entry
  | .superCall token => .superCall token.call
  | .setting name value => .setting ⟨String.ofList name, (value.map QuotedToken.meaning).getD ""⟩

/-- An entry is read as it is written, together with the filler behind it. -/
theorem readEntry_printed {superAllowed : Bool} {entry : EntryDraft} {text filler : List Char}
    (hentry : entry.Prints text) (hallowed : entry.token?.isSome = true → superAllowed = true)
    (hfiller : IsFiller filler) (hends : EndsEntry rest) (h : c.rest = text ++ (filler ++ rest)) :
    ∃ read, readEntry superAllowed c = .ok (read, c.past (text ++ filler)) ∧
      read.bare = entry.entry := by
  cases hentry with
  | @superCall token valid =>
      refine ⟨.superCall ⟨token.target.map String.ofList, c.spanTo (c.past token.lexeme)⟩, ?_, rfl⟩
      unfold readEntry
      rw [hallowed rfl, if_pos rfl, readSuperCall?_printed valid h]
      simp only [skipFiller_eq hfiller hends.gapless hends.head_ne.1 (Cursor.rest_past h),
        Cursor.past_past]
      rfl
  | @name name valid =>
      have hassignment : readAssignment (c.past (text ++ filler)) = .ok ("", c.past (text ++ filler)) := by
        have hrest : (c.past (text ++ filler)).rest = rest := Cursor.rest_past (by simp [h])
        rw [readAssignment, if_neg]
        rw [Cursor.current?, hrest]
        exact hends.head_ne.2
      have hread := readAttribute_printed valid hfiller hends.gapless hends.head_ne.1 hends.stops h
        hassignment
      refine ⟨.setting ⟨String.ofList text, ""⟩, ?_, rfl⟩
      unfold readEntry
      rw [readSuperCall?_name valid (stops_behind_filler hfiller hends.stops) h, ite_self, hread]
      rfl
  | @value name before after token valid hbefore hafter quoted =>
      have h' : c.rest = name ++ (before ++ (['='] ++ (after ++ (token.lexeme ++ (filler ++ rest))))) := by
        simp [h]
      have hequals : Stops (['='] ++ (after ++ (token.lexeme ++ (filler ++ rest)))) :=
        .cons (by decide) _
      have hrest : (c.past (name ++ before)).rest =
          ['='] ++ (after ++ (token.lexeme ++ (filler ++ rest))) :=
        Cursor.rest_past (by simp [h])
      have hread := readAttribute_printed valid hbefore (Heads.cons (by decide) _) (by simp)
        hequals h' (readAssignment_printed hafter quoted hfiller hends hrest)
      refine ⟨.setting ⟨String.ofList name, token.meaning⟩, ?_, rfl⟩
      unfold readEntry
      rw [readSuperCall?_name valid (stops_behind_filler hbefore hequals) h', ite_self, hread,
        Cursor.past_past]
      simp [Except.map]

end Entries

/-! ## Attribute lists -/

theorem EntryDraft.Prints.head {entry : EntryDraft} {text : List Char} (h : entry.Prints text) :
    ∃ d tail, text = d :: tail ∧ isNameChar d = true := by
  cases h with
  | @superCall token valid =>
      obtain ⟨c, cs, htoken, -⟩ := token.lexeme_start
      exact ⟨'s', _, htoken, by decide⟩
  | name valid =>
      obtain ⟨d, tail, rfl, hd⟩ := head_of_isName valid
      exact ⟨d, tail, rfl, isNameChar_of_isStart hd⟩
  | value valid _ _ _ =>
      obtain ⟨d, tail, rfl, hd⟩ := head_of_isName valid
      exact ⟨d, _, rfl, isNameChar_of_isStart hd⟩

theorem PrintsEntries.head {entries : List EntryDraft} {text : List Char}
    (h : PrintsEntries entries text) : ∃ d tail, text = d :: tail ∧ isNameChar d = true := by
  cases h with
  | last printed _ =>
      obtain ⟨d, tail, rfl, hd⟩ := printed.head
      exact ⟨d, _, rfl, hd⟩
  | cons printed _ _ _ =>
      obtain ⟨d, tail, rfl, hd⟩ := printed.head
      exact ⟨d, _, rfl, hd⟩

/-- Filler goes up to the first entry behind it. -/
theorem PrintsEntries.gapless {entries : List EntryDraft} {text : List Char}
    (h : PrintsEntries entries text) (rest : List Char) :
    Gapless (text ++ rest) ∧ (text ++ rest).head? ≠ some '/' := by
  obtain ⟨d, tail, rfl, hd⟩ := h.head
  refine ⟨.cons (isGap_of_isNameChar hd) _, ?_⟩
  intro hslash
  cases hslash
  exact absurd hd (by decide)

theorem isNone_superCall?_of_bare {read : Entry} {entry : EntryDraft}
    (h : read.bare = entry.entry) : read.superCall?.isNone = entry.token?.isNone := by
  cases read <;> cases entry <;> first | rfl | cases h

section Lists

variable {rest : List Char}

/-- Where one super call is left at most, and none if none is allowed, one that comes is
allowed, and behind it none is left. -/
theorem allowed_of_length_le {entry : EntryDraft} {entries : List EntryDraft}
    {superAllowed : Bool}
    (h : ((entry :: entries).filterMap EntryDraft.token?).length ≤
      (if superAllowed then 1 else 0)) :
    (entry.token?.isSome = true → superAllowed = true) ∧
      (entries.filterMap EntryDraft.token?).length ≤
        (if superAllowed && entry.token?.isNone then 1 else 0) := by
  cases htoken : entry.token? <;> cases superAllowed <;> simp_all

/-- The entries of a list are read as they are written, up to the closing parenthesis. -/
theorem readEntries_printed {entries : List EntryDraft} {text : List Char}
    (h : PrintsEntries entries text) :
    ∀ {superAllowed : Bool} {c : Cursor},
      (entries.filterMap EntryDraft.token?).length ≤ (if superAllowed then 1 else 0) →
      c.rest = text ++ ([')'] ++ rest) →
      ∃ read, readEntries superAllowed c = .ok (read, c.past (text ++ [')'])) ∧
        read.map Entry.bare = entries.map EntryDraft.entry := by
  induction h with
  | @last entry text after printed filler =>
      intro superAllowed c hcount hrest
      obtain ⟨read, hread, hbare⟩ := readEntry_printed printed (allowed_of_length_le hcount).1 filler
        ⟨')', rest, rfl, .inr rfl⟩ (by simpa using hrest)
      have hclose : (c.past (text ++ after)).current? = some ')' := by
        rw [Cursor.current?, Cursor.rest_past hrest]
        rfl
      refine ⟨[read], ?_, by simp [hbare]⟩
      rw [readEntries_eq, hread]
      simp only [bind, Except.bind, hclose, if_true, Cursor.past_past]
  | @cons entry entries text before after others printed filler filler' printedOthers ih =>
      intro superAllowed c hcount hrest
      have hfirst : c.rest = (text ++ before) ++ ([','] ++ (after ++ (others ++ ([')'] ++ rest)))) := by
        simp [hrest]
      obtain ⟨read, hread, hbare⟩ := readEntry_printed printed (allowed_of_length_le hcount).1 filler
        ⟨',', after ++ (others ++ ([')'] ++ rest)), rfl, .inl rfl⟩ (by simpa using hfirst)
      have hcommaRest := Cursor.rest_past hfirst
      have hcomma : (c.past (text ++ before)).current? = some ',' := by
        rw [Cursor.current?, hcommaRest]
        rfl
      have hgapless := printedOthers.gapless ([')'] ++ rest)
      have hskip := skipFiller_eq filler' hgapless.1 hgapless.2 (Cursor.rest_past hcommaRest)
      have hremaining := (allowed_of_length_le hcount).2
      rw [← isNone_superCall?_of_bare hbare] at hremaining
      obtain ⟨reads, hreads, hbares⟩ :=
        ih hremaining (Cursor.rest_past (Cursor.rest_past hcommaRest))
      refine ⟨read :: reads, ?_, by simp [hbare, hbares]⟩
      have hne : ¬ (c.past (text ++ before)).current? = some ')' := by
        rw [hcomma]
        decide
      rw [readEntries_eq, hread]
      simp only [bind, Except.bind, if_neg hne, if_pos hcomma, hskip, hreads]
      simp [Cursor.past_past]

theorem ofEntries_bare (entries : List Entry) (span : Span) :
    (AttributeGroup.ofEntries entries span).bare = .ofEntries (entries.map Entry.bare) .blank := by
  have hcall : (entries.findSome? Entry.superCall?).map SuperCall.bare =
      (entries.map Entry.bare).findSome? Entry.superCall? := by
    induction entries with
    | nil => rfl
    | cons entry entries ih =>
        cases entry with
        | superCall call => rfl
        | setting entry => exact ih
  have hsetting : Entry.setting? ∘ Entry.bare = Entry.setting? := by
    funext entry
    cases entry <;> rfl
  have hsettings : entries.filterMap Entry.setting? =
      (entries.map Entry.bare).filterMap Entry.setting? := by
    rw [List.filterMap_map, hsetting]
  simp only [AttributeGroup.bare, AttributeGroup.ofEntries, hcall, hsettings]

/-- The attribute list of the entries as they are read is the one of the drafts. -/
theorem ofEntries_map_entry (entries : List EntryDraft) :
    AttributeGroup.ofEntries (entries.map EntryDraft.entry) .blank = EntryDraft.group entries := by
  have hcall : (entries.map EntryDraft.entry).findSome? Entry.superCall? =
      (entries.findSome? EntryDraft.token?).map SuperToken.call := by
    induction entries with
    | nil => rfl
    | cons entry entries ih =>
        cases entry with
        | superCall token => rfl
        | setting name value => exact ih
  have hsettings : (entries.map EntryDraft.entry).filterMap Entry.setting? =
      entries.filterMap EntryDraft.attribute? := by
    rw [List.filterMap_map]
    refine List.filterMap_congr fun entry _ => ?_
    rcases entry with token | ⟨name, _ | value⟩ <;> rfl
  rw [AttributeGroup.ofEntries, hcall, hsettings, EntryDraft.group]

/-- An attribute list is read as it is written. -/
theorem readAttributeGroup_printed {entries : List EntryDraft} {text : List Char} {c : Cursor}
    (h : PrintsAttributes (some entries) text) (hrest : c.rest = text ++ rest) :
    ∃ group, readAttributeGroup c = .ok (group, c.past text) ∧
      group.bare = EntryDraft.group entries := by
  cases h with
  | @empty inner filler =>
      have hopen : c.rest = ['('] ++ (inner ++ ([')'] ++ rest)) := by simp [hrest]
      have hclosing : Gapless ([')'] ++ rest) := .cons (by decide) _
      have hskip := skipFiller_eq filler hclosing (by simp) (Cursor.rest_past hopen)
      have hclose : ((c.past ['(']).past inner).current? = some ')' := by
        rw [Cursor.current?, Cursor.rest_past (Cursor.rest_past hopen)]
        rfl
      refine ⟨⟨none, [], c.spanTo (c.past ('(' :: (inner ++ [')'])))⟩, ?_, rfl⟩
      unfold readAttributeGroup
      rw [hskip]
      simp only [bind, Except.bind, hclose, if_true]
      simp [Cursor.past_past]
  | @entries _ before text filler printed superCalls =>
      have hopen : c.rest = ['('] ++ (before ++ (text ++ ([')'] ++ rest))) := by simp [hrest]
      have hgapless := printed.gapless ([')'] ++ rest)
      have hskip := skipFiller_eq filler hgapless.1 hgapless.2 (Cursor.rest_past hopen)
      have hinner := Cursor.rest_past (Cursor.rest_past hopen)
      have hclose : ¬ ((c.past ['(']).past before).current? = some ')' := by
        obtain ⟨d, tail, rfl, hd⟩ := printed.head
        rw [Cursor.current?, hinner]
        intro hd'
        cases hd'
        exact absurd hd (by decide)
      obtain ⟨read, hread, hbare⟩ := @readEntries_printed _ _ _ printed true _
        (by simpa using superCalls) hinner
      refine ⟨.ofEntries read (c.spanTo (c.past ('(' :: (before ++ (text ++ [')']))))), ?_, ?_⟩
      · unfold readAttributeGroup
        rw [hskip]
        simp only [bind, Except.bind, if_neg hclose, hread]
        simp [Cursor.past_past, AttributeGroup.ofEntries]
      · rw [ofEntries_bare, hbare, ofEntries_map_entry]

/-- Behind a gap, an attribute list is read as it is written; none is read where none is
written. -/
theorem readAttributes_printed {attributes : Option (List EntryDraft)} {gap text : List Char}
    {c : Cursor} (h : PrintsAttributes attributes text) (hgap : Blank gap)
    (hjoined : attributes = none → gap = [])
    (hnone : attributes = none → (rest.dropWhile isGap).head? ≠ some '(')
    (hrest : c.rest = gap ++ (text ++ rest)) :
    ∃ group, readAttributes c.skipGaps = .ok (group, (c.past (gap ++ text)).skipGaps) ∧
      group.map AttributeGroup.bare = attributes.map EntryDraft.group := by
  cases attributes with
  | none =>
      cases h
      cases hjoined rfl
      have hopen : ¬ c.skipGaps.current? = some '(' := by
        rw [Cursor.current?, Cursor.skipGaps_rest, hrest]
        exact hnone rfl
      refine ⟨none, ?_, rfl⟩
      rw [readAttributes, if_neg hopen]
      simp
  | some entries =>
      have hhead : ∃ tail, text = '(' :: tail := by
        cases h with
        | empty _ => exact ⟨_, rfl⟩
        | entries _ _ _ => exact ⟨_, rfl⟩
      obtain ⟨tail, htail⟩ := hhead
      have hskip : c.skipGaps = c.past gap := by
        refine skipGaps_eq hgap hrest ?_
        rw [htail]
        exact .cons (by decide) _
      have hinner := Cursor.rest_past hrest
      have hopen : (c.past gap).current? = some '(' := by
        rw [Cursor.current?, hinner, htail]
        rfl
      obtain ⟨group, hgroup, hbare⟩ := readAttributeGroup_printed h hinner
      refine ⟨some group, ?_, by simp [hbare]⟩
      rw [hskip, readAttributes, if_pos hopen, hgroup, Cursor.past_past]
      rfl

end Lists

/-! ## Name lists -/

/-- What comes directly behind a part of a heading: a gap, another part or the end of the
content. -/
abbrev EndsPart := Heads fun d => isGap d = true ∨ d ∈ ['(', '\x7b', '\x7d', '#']

section Parts

variable {rest : List Char}

theorem stops_of_endsPart (h : EndsPart rest) : Stops rest := by
  refine h.mono fun d hd => ?_
  rcases hd with hgap | hmem
  · exact isStop_of_isGap hgap
  · simp only [List.mem_cons, List.not_mem_nil, or_false] at hmem
    rcases hmem with rfl | rfl | rfl | rfl <;> decide

/-- A slot without a text is empty. -/
theorem IsSlot.eq_none {slot : Option (List Char)} (h : IsSlot slot) (hnil : slot.getD [] = []) :
    slot = none := by
  cases slot with
  | none => rfl
  | some name => exact absurd hnil (ne_nil_of_isName (h name rfl))

theorem IsSlot.isName {slot : Option (List Char)} (h : IsSlot slot) :
    slot.getD [] = [] ∨ NameClass.element.IsName (slot.getD []) := by
  cases slot with
  | none => exact .inl rfl
  | some name => exact .inr (h name rfl)

/-- What is read in a slot is the name that is written there, or none. -/
theorem nameSlot_getD {slot : Option (List Char)} (h : IsSlot slot) :
    nameSlot (slot.getD []) = slot.map String.ofList := by
  cases slot with
  | none => rfl
  | some name =>
      rw [Option.getD_some, nameSlot, if_neg (by simpa using ne_nil_of_isName (h name rfl))]
      rfl

/-- A slot is read as it is written, an empty one also behind a gap. -/
theorem slot_printed {name : List Char} {c : Cursor}
    (hvalid : name = [] ∨ NameClass.element.IsName name) (hstops : Stops rest)
    (hempty : name = [] → Heads (fun d => isLetterOrUnderscore d = false) (rest.dropWhile isGap))
    (hrest : c.rest = name ++ rest) :
    NameClass.element.lexeme c.skipGaps.rest = name ∧
      (c.skipGaps.past name).skipGaps = (c.past name).skipGaps := by
  rcases hvalid with rfl | hname
  · refine ⟨?_, by rw [Cursor.past_nil, Cursor.past_nil, Cursor.skipGaps_skipGaps]⟩
    rw [Cursor.skipGaps_rest, hrest]
    exact lexeme_eq_nil (hempty rfl)
  · have hskip : c.skipGaps = c := by
      refine skipGaps_of_gapless ?_
      obtain ⟨d, tail, rfl, hd⟩ := head_of_isName hname
      rw [hrest]
      exact .cons (isGap_of_isNameChar (isNameChar_of_isStart hd)) _
    rw [hskip, hrest]
    exact ⟨lexeme_append hname (heads_of_stops hstops), rfl⟩

/-- The slots of a name list are read as they are written. -/
theorem readSlots_printed {slots : List (Option (List Char))} {text : List Char}
    (h : PrintsSlots slots text) (hstops : Stops rest)
    (hcomma : (rest.dropWhile isGap).head? ≠ some ',')
    (hempty : (∃ front, slots = front ++ [none]) →
      Heads (fun d => isLetterOrUnderscore d = false) (rest.dropWhile isGap)) :
    ∀ {c : Cursor}, c.rest = text ++ rest →
      readSlots c.skipGaps = (slots.map (·.map String.ofList), (c.past text).skipGaps) := by
  induction h with
  | @last slot valid =>
      intro c hrest
      have hslot := slot_printed valid.isName hstops
        (fun hnil => hempty ⟨[], by rw [valid.eq_none hnil]; rfl⟩) hrest
      have hnext : ¬ (c.past (slot.getD [])).skipGaps.current? = some ',' := by
        rw [Cursor.current?, Cursor.skipGaps_rest, Cursor.rest_past hrest]
        exact hcomma
      rw [readSlots]
      simp only [hslot.1, hslot.2, if_neg hnext, nameSlot_getD valid]
      rfl
  | @cons slot before after others slots valid blank blank' _ ih =>
      intro c hrest
      have hfirst : c.rest = slot.getD [] ++ (before ++ ([','] ++ (after ++ (others ++ rest)))) := by
        simp [hrest]
      have hgapless : Gapless ([','] ++ (after ++ (others ++ rest))) := .cons (by decide) _
      have hstop : Stops (before ++ ([','] ++ (after ++ (others ++ rest)))) :=
        Heads.append (fun d hd => isStop_of_isGap (blank d hd)) (.cons (by decide) _)
      have hletter : Heads (fun d => isLetterOrUnderscore d = false)
          ((before ++ ([','] ++ (after ++ (others ++ rest)))).dropWhile isGap) := by
        rw [dropWhile_of_blank blank, dropWhile_of_gapless hgapless]
        exact .cons (by decide) _
      have hslot := slot_printed valid.isName hstop (fun _ => hletter) hfirst
      have hbefore := Cursor.rest_past hfirst
      have hnext := skipGaps_eq blank hbefore hgapless
      have hinner := Cursor.rest_past hbefore
      have hat : ((c.past (slot.getD [])).past before).current? = some ',' := by
        rw [Cursor.current?, hinner]
        rfl
      have hafter := Cursor.rest_past hinner
      have hlater := ih
        (fun h => h.elim fun front hfront => hempty ⟨slot :: front, by rw [hfront]; rfl⟩)
        (Cursor.rest_past hafter)
      rw [← skipGaps_of_blank blank' hafter] at hlater
      rw [readSlots]
      simp only [hslot.1, hslot.2, hnext, hat, if_true, hlater, nameSlot_getD valid]
      simp [Cursor.past_past]

/-- The text of slots starts with a name, a gap or a comma, unless it is empty. -/
theorem PrintsSlots.heads {p : Char → Prop} {slots : List (Option (List Char))} {text : List Char}
    (h : PrintsSlots slots text) (hname : ∀ d, isNameChar d = true → p d)
    (hgap : ∀ d, isGap d = true → p d) (hcomma : p ',') (hrest : Heads p rest) :
    Heads p (text ++ rest) := by
  have hslot : ∀ {slot : Option (List Char)} {tail : List Char}, IsSlot slot →
      Heads p tail → Heads p (slot.getD [] ++ tail) := by
    intro slot tail hvalid htail
    cases slot with
    | none => exact htail
    | some name =>
        obtain ⟨d, others, rfl, hd⟩ := head_of_isName (hvalid name rfl)
        exact .cons (hname d (isNameChar_of_isStart hd)) _
  cases h with
  | last valid => exact hslot valid hrest
  | cons valid blank _ _ =>
      rw [List.append_assoc, List.append_assoc]
      exact hslot valid (Heads.append (fun d hd => hgap d (blank d hd)) (.cons hcomma _))

theorem startsComment_eq_false {cs : List Char} (h : Heads (fun d => d ≠ '/' ∧ d ≠ '*') cs) :
    startsComment ('/' :: cs) = false := by
  unfold startsComment
  split
  · rename_i hcons
    rw [(List.cons.inj hcons).2] at h
    exact absurd rfl (h '/' rfl).1
  · rename_i hcons
    rw [(List.cons.inj hcons).2] at h
    exact absurd rfl (h '*' rfl).2
  · rfl

/-- A name list does not start like a comment. -/
theorem startsComment_names {slots : List (Option (List Char))} {gap text : List Char}
    (hgap : Blank gap) (h : PrintsSlots slots text) (hrest : EndsPart rest) :
    startsComment ('/' :: (gap ++ (text ++ rest))) = false := by
  have hblank : ∀ d, isGap d = true → d ≠ '/' ∧ d ≠ '*' := by
    intro d hd
    constructor <;> rintro rfl <;> exact absurd hd (by decide)
  have hname : ∀ d, isNameChar d = true → d ≠ '/' ∧ d ≠ '*' := by
    intro d hd
    constructor <;> rintro rfl <;> exact absurd hd (by decide)
  have hend : Heads (fun d => d ≠ '/' ∧ d ≠ '*') rest := by
    refine hrest.mono fun d hd => ?_
    rcases hd with hd | hmem
    · exact hblank d hd
    · simp only [List.mem_cons, List.not_mem_nil, or_false] at hmem
      rcases hmem with rfl | rfl | rfl | rfl <;> decide
  exact startsComment_eq_false
    (Heads.append (fun d hd => hblank d (hgap d hd)) (h.heads hname hblank (by decide) hend))

/-- What may come behind a name list, or behind the place of one: nothing that it would
take as its own. -/
structure EndsNames (names : Option (List (Option (List Char)))) (rest : List Char) : Prop where
  part : EndsPart rest
  comma : (rest.dropWhile isGap).head? ≠ some ','
  slot : (∃ front, names = some (front ++ [none])) →
    Heads (fun d => isLetterOrUnderscore d = false) (rest.dropWhile isGap)
  slash : names = none → (rest.dropWhile isGap).head? = some '/' →
    startsComment (rest.dropWhile isGap) = true

/-- Behind a gap, a name list is read as it is written; none is read where none is
written. -/
theorem readNames_printed {names : Option (List (Option (List Char)))} {gap text : List Char}
    {c : Cursor} (h : PrintsNames names text) (hgap : Blank gap) (hjoined : names = none → gap = [])
    (hends : EndsNames names rest) (hrest : c.rest = gap ++ (text ++ rest)) :
    readNames c.skipGaps =
      (names.map (·.map (·.map String.ofList)), (c.past (gap ++ text)).skipGaps) := by
  cases h with
  | none =>
      cases hjoined rfl
      have hslash : (c.skipGaps.current? = some '/' && !startsComment c.skipGaps.rest) = false := by
        rw [Cursor.current?, Cursor.skipGaps_rest, hrest]
        by_cases hhead : (rest.dropWhile isGap).head? = some '/'
        · simp [hends.slash rfl hhead]
        · simp [hhead]
      rw [readNames, hslash]
      simp
  | @some slots inner text blank printed =>
      have hslash : c.rest = gap ++ (['/'] ++ (inner ++ (text ++ rest))) := by simp [hrest]
      have hskip := skipGaps_eq hgap hslash (Heads.cons (by decide) _)
      have hat := Cursor.rest_past hslash
      have hinner := Cursor.rest_past hat
      have hnoComment : startsComment ('/' :: (inner ++ (text ++ rest))) = false :=
        startsComment_names blank printed hends.part
      have hcurrent : ((c.past gap).current? = some '/' &&
          !startsComment (c.past gap).rest) = true := by
        rw [Cursor.current?, hat, List.singleton_append, hnoComment]
        rfl
      have hslots := readSlots_printed printed (stops_of_endsPart hends.part) hends.comma
        (fun h => h.elim fun front hfront => hends.slot ⟨front, by rw [hfront]⟩)
        (Cursor.rest_past hinner)
      rw [← skipGaps_of_blank blank hinner] at hslots
      rw [hskip, readNames, if_pos hcurrent]
      simp only [hslots]
      simp [Cursor.past_past]

end Parts

/-! ## Headings -/

/-- What may come behind a heading: nothing that it would take as a part of its own. -/
structure HeadingDraft.EndsBefore (heading : HeadingDraft) (rest : List Char) : Prop where
  part : EndsPart rest
  comma : (rest.dropWhile isGap).head? ≠ some ','
  list : heading.attributes = none → (rest.dropWhile isGap).head? ≠ some '('
  names : heading.IsTagOnly → (rest.dropWhile isGap).head? = some '/' →
    startsComment (rest.dropWhile isGap) = true
  slot : heading.EndsInEmptySlot →
    Heads (fun d => isLetterOrUnderscore d = false) (rest.dropWhile isGap)

section Headings

variable {c : Cursor} {rest : List Char}

theorem readMark_printed {isHelper : Bool} (hnone : isHelper = false → rest.head? ≠ some '@')
    (hrest : c.rest = (if isHelper then ['@'] else []) ++ rest) :
    readMark c = (isHelper, c.past (if isHelper then ['@'] else [])) := by
  cases isHelper with
  | true => simp [readMark, Cursor.current?, hrest]
  | false =>
      have hat : ¬ c.current? = some '@' := by
        rw [Cursor.current?, hrest]
        exact hnone rfl
      rw [readMark, if_neg hat]
      simp

theorem readTag_printed {tag : Option (List Char)}
    (hvalid : ∀ name, tag = some name → NameClass.tag.IsName name)
    (hstops : tag ≠ none → Stops rest) (hnone : tag = none → ∃ tail, rest = '/' :: tail)
    (hrest : c.rest = tag.getD [] ++ rest) :
    readTag c = (tag.map String.ofList, (c.past (tag.getD [])).skipGaps) := by
  cases tag with
  | none =>
      obtain ⟨tail, htail⟩ := hnone rfl
      have hslash : c.rest = '/' :: tail := by simpa [htail] using hrest
      have hlexeme : NameClass.tag.lexeme c.rest = [] := by
        rw [hslash]
        exact lexeme_eq_nil (.cons (by decide) _)
      have hskip : c.skipGaps = c := by
        refine skipGaps_of_gapless ?_
        rw [hslash]
        exact .cons (by decide) _
      simp [readTag, hlexeme, hskip]
  | some name =>
      have hname := hvalid name rfl
      have hlexeme : NameClass.tag.lexeme c.rest = name := by
        rw [hrest]
        exact lexeme_append hname (heads_of_stops (hstops (by simp)))
      have hne : name.isEmpty = false := by simpa using ne_nil_of_isName hname
      simp [readTag, hlexeme, hne]

/-- Behind the name list there is the attribute list or what comes behind the heading. -/
theorem rest_of_printsAttributes {attributes : Option (List EntryDraft)} {gap text : List Char}
    (h : PrintsAttributes attributes text) (hgap : Blank gap)
    (hjoined : attributes = none → gap = []) :
    (attributes = none ∧ gap ++ (text ++ rest) = rest) ∨
      attributes ≠ none ∧ EndsPart (gap ++ (text ++ rest)) ∧
        ∃ tail, (gap ++ (text ++ rest)).dropWhile isGap = '(' :: tail := by
  have hopen : ∀ tail, EndsPart (gap ++ '(' :: tail) ∧
      ∃ tail', (gap ++ '(' :: tail).dropWhile isGap = '(' :: tail' := by
    intro tail
    refine ⟨Heads.append (fun d hd => .inl (hgap d hd)) (.cons (by simp) _), tail, ?_⟩
    rw [dropWhile_of_blank hgap]
    exact dropWhile_of_gapless (.cons (by decide) _)
  cases h with
  | none =>
      cases hjoined rfl
      exact .inl ⟨rfl, rfl⟩
  | empty filler =>
      rw [List.cons_append]
      exact .inr ⟨by simp, hopen _⟩
  | entries filler printed superCalls =>
      rw [List.cons_append]
      exact .inr ⟨by simp, hopen _⟩

theorem endsPart_of_printsAttributes {attributes : Option (List EntryDraft)}
    {gap text : List Char} (h : PrintsAttributes attributes text) (hgap : Blank gap)
    (hjoined : attributes = none → gap = []) (hrest : EndsPart rest) :
    EndsPart (gap ++ (text ++ rest)) := by
  rcases rest_of_printsAttributes h hgap hjoined with ⟨-, heq⟩ | ⟨-, hpart, -⟩
  · rw [heq]
    exact hrest
  · exact hpart

/-- A name list starts with its slash. -/
theorem exists_slash_of_printsNames {names : Option (List (Option (List Char)))} {text : List Char}
    (h : PrintsNames names text) (hne : names ≠ none) (rest : List Char) :
    ∃ tail, text ++ rest = '/' :: tail := by
  cases h with
  | none => exact absurd rfl hne
  | some _ _ => exact ⟨_, rfl⟩

theorem stops_of_printsNames {names : Option (List (Option (List Char)))}
    {gap text : List Char} (h : PrintsNames names text) (hgap : Blank gap)
    (hrest : EndsPart rest) : Stops (gap ++ (text ++ rest)) := by
  refine Heads.append (fun d hd => isStop_of_isGap (hgap d hd)) ?_
  cases h with
  | none => exact stops_of_endsPart hrest
  | some _ _ => exact .cons (by decide) _

/-- A heading starts with its mark, its tag or, if it has neither, its name list. -/
theorem HeadingDraft.Prints.start {heading : HeadingDraft} {text : List Char}
    (h : heading.Prints text) (hrest : EndsPart rest) :
    (heading.isHelper = true ∧ ∃ tail, text = '@' :: tail) ∨
      (heading.isHelper = false ∧ heading.tag = none ∧
        ∃ tail, text ++ rest = '/' :: tail ∧ startsComment ('/' :: tail) = false) ∨
      heading.isHelper = false ∧ ∃ tag tail, heading.tag = some tag ∧
        NameClass.tag.IsName tag ∧ text ++ rest = tag ++ tail ∧ Stops tail := by
  cases h with
  | @intro gap names gap' attributes valid known blank joined named blank' joined' listed =>
      have hpart := endsPart_of_printsAttributes listed blank' joined' hrest
      cases hmark : heading.isHelper with
      | true => exact .inl ⟨rfl, heading.tag.getD [] ++ (gap ++ (names ++ (gap' ++ attributes))),
          by simp [HeadingDraft.front, hmark]⟩
      | false =>
          cases htag : heading.tag with
          | some tag =>
              refine .inr (.inr ⟨rfl, tag, gap ++ (names ++ (gap' ++ (attributes ++ rest))), rfl,
                valid tag htag, by simp [HeadingDraft.front, hmark, htag], ?_⟩)
              exact stops_of_printsNames named blank hpart
          | none =>
              cases joined (.inl htag)
              cases hnames : heading.names with
              | none => simp [htag, hnames] at known
              | some slots =>
                  rw [hnames] at named
                  cases named with
                  | @some _ inner written hinner hslots =>
                      refine .inr (.inl ⟨rfl, rfl,
                        inner ++ (written ++ (gap' ++ (attributes ++ rest))), ?_,
                        startsComment_names hinner hslots hpart⟩)
                      simp [HeadingDraft.front, hmark, htag]

/-- What comes behind a name list, be it in the heading or behind it, does not continue it. -/
theorem endsNames_of_endsBefore {heading : HeadingDraft} {gap text : List Char}
    (h : PrintsAttributes heading.attributes text) (hgap : Blank gap)
    (hjoined : heading.attributes = none → gap = []) (hends : heading.EndsBefore rest) :
    EndsNames heading.names (gap ++ (text ++ rest)) := by
  rcases @rest_of_printsAttributes rest _ _ _ h hgap hjoined with
    ⟨hnone, heq⟩ | ⟨-, hpart, tail, hdrop⟩
  · rw [heq]
    exact ⟨hends.part, hends.comma, fun hslot => hends.slot ⟨hnone, hslot⟩,
      fun hnames => hends.names ⟨hnames, hnone⟩⟩
  · refine ⟨hpart, ?_, fun _ => ?_, fun _ hslash => ?_⟩
    · simp [hdrop]
    · rw [hdrop]
      exact .cons (by decide) _
    · simp [hdrop] at hslash

/-- A tag does not start like a mark, nor does the name list that is there in its place. -/
theorem head_ne_mark {tag : Option (List Char)}
    (hvalid : ∀ name, tag = some name → NameClass.tag.IsName name)
    (hnone : tag = none → ∃ tail, rest = '/' :: tail) : (tag.getD [] ++ rest).head? ≠ some '@' := by
  cases tag with
  | none =>
      obtain ⟨tail, rfl⟩ := hnone rfl
      simp
  | some name =>
      obtain ⟨d, others, rfl, hd⟩ := head_of_isName (hvalid name rfl)
      intro hmark
      cases hmark
      exact absurd hd (by decide)

/-- A heading is read as it is written, together with the gap behind it. -/
theorem readHeading_printed {heading : HeadingDraft} {text : List Char}
    (h : heading.Prints text) (hends : heading.EndsBefore rest) (hrest : c.rest = text ++ rest) :
    ∃ read, readHeading c = .ok (read, (c.past text).skipGaps) ∧ read.bare = heading.heading := by
  cases h with
  | @intro gap names gap' attributes valid known blank joined named blank' joined' listed =>
      have hall : c.rest = (if heading.isHelper then ['@'] else []) ++ (heading.tag.getD [] ++
          (gap ++ (names ++ (gap' ++ (attributes ++ rest))))) := by
        simp [hrest, HeadingDraft.front]
      have hmarkRest := Cursor.rest_past hall
      have htagRest := Cursor.rest_past hmarkRest
      have hnamesRest : (((c.past (if heading.isHelper then ['@'] else [])).past
          (heading.tag.getD [])).past (gap ++ names)).rest = gap' ++ (attributes ++ rest) :=
        Cursor.rest_past (by simpa using htagRest)
      have hendsNames := endsNames_of_endsBefore listed blank' joined' hends
      -- a heading without a tag has a name list, which then comes directly
      have hnoTag : heading.tag = none →
          ∃ tail, gap ++ (names ++ (gap' ++ (attributes ++ rest))) = '/' :: tail := by
        intro hnone
        rw [joined (.inl hnone)]
        exact exists_slash_of_printsNames named (known.resolve_left fun hne => hne hnone) _
      have hmark := readMark_printed (fun _ => head_ne_mark valid hnoTag) hall
      have htag := readTag_printed valid
        (fun _ => stops_of_printsNames named blank hendsNames.part) hnoTag hmarkRest
      have hnames := readNames_printed named blank (fun hnone => joined (.inr hnone)) hendsNames
        htagRest
      obtain ⟨group, hgroup, hbare⟩ :=
        readAttributes_printed listed blank' joined' hends.list hnamesRest
      have hknown : ((heading.tag.map String.ofList).isNone &&
          (heading.names.map (·.map (·.map String.ofList))).isNone) = false := by
        rw [Option.isNone_map, Option.isNone_map, Bool.and_eq_false_iff,
          Option.isNone_eq_false_iff, Option.isNone_eq_false_iff]
        exact known.imp Option.isSome_iff_ne_none.2 Option.isSome_iff_ne_none.2
      refine ⟨⟨heading.isHelper, heading.tag.map String.ofList,
        heading.names.map (·.map (·.map String.ofList)), group⟩, ?_, ?_⟩
      · unfold readHeading
        dsimp only
        rw [hmark, htag, hnames, hknown, hgroup]
        simp [Except.map, Cursor.past_past, HeadingDraft.front]
      · rw [Heading.bare, HeadingDraft.heading, hbare]

end Headings

end BemMarkup.Document

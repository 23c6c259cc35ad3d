import BemMarkup.Document.Parse
import BemMarkup.Proofs.Document.Characters
import BemMarkup.Proofs.Document.Layout
import BemMarkup.Proofs.Document.Reading

/-!
# The ranges of a document

Every reader moves over the text that it takes, and here this text is looked at closely
enough to see that all records are laid in it.

Only elements without braces need care.  Their text is read up to the next token and then
trimmed, with a notion of white space that is not the one of gaps.  It is right all the same
because a heading ends in a character that is no white space, so what is trimmed off is a
part of the gap behind it.

## Main results

* `readHeading_laid`: a heading starts and ends with its own characters.
* `Reads.laid`: content that is read is laid in the text that it is read from.
* `parse_ranges`: the ranges of all records of a document.
-/

namespace BemMarkup.Document

open Text

/-! ## Texts with nothing to trim -/

/-- A text that neither starts nor ends with white space. -/
structure Solid (text : List Char) : Prop where
  first : ∃ c rest, text = c :: rest ∧ isWhite c = false
  last : ∃ front c, text = front ++ [c] ∧ isWhite c = false

/-- A solid text with a gap behind it, or no text. -/
inductive Padded : List Char → Prop
  | nil : Padded []
  | intro {core gap : List Char} (solid : Solid core) (blank : Blank gap) : Padded (core ++ gap)

theorem blank_takeWhile (cs : List Char) : Blank (cs.takeWhile isGap) :=
  fun c hc => List.all_eq_true.1 List.all_takeWhile c hc

theorem Solid.ne_nil {text : List Char} (h : Solid text) : text ≠ [] := by
  obtain ⟨c, rest, rfl, -⟩ := h.first
  simp

theorem Solid.around {a b : List Char} (ha : Solid a) (mid : List Char) (hb : Solid b) :
    Solid (a ++ (mid ++ b)) := by
  obtain ⟨c, rest, rfl, hc⟩ := ha.first
  obtain ⟨front, d, rfl, hd⟩ := hb.last
  exact ⟨⟨c, _, rfl, hc⟩, ⟨c :: rest ++ (mid ++ front), d, by simp, hd⟩⟩

theorem Solid.singleton {c : Char} (h : isWhite c = false) : Solid [c] :=
  ⟨⟨c, [], rfl, h⟩, ⟨[], c, rfl, h⟩⟩

theorem Solid.of_forall {text : List Char} (hne : text ≠ [])
    (h : ∀ c ∈ text, isWhite c = false) : Solid text := by
  constructor
  · cases text with
    | nil => exact absurd rfl hne
    | cons c rest => exact ⟨c, rest, rfl, h c (by simp)⟩
  · exact ⟨text.dropLast, text.getLast hne, (List.dropLast_concat_getLast hne).symm,
      h _ (List.getLast_mem hne)⟩

/-- A name that is read is solid. -/
theorem solid_lexeme {cls : NameClass} {cs : List Char} (h : cls.lexeme cs ≠ []) :
    Solid (cls.lexeme cs) := by
  refine .of_forall h fun c hc => ?_
  rcases isNameChar_of_isName (NameClass.lexeme_isName h) c hc with hname | rfl
  · exact isWhite_of_isNameChar hname
  · decide

/-- Behind a solid text, only white space of what follows is trimmed. -/
theorem Solid.trim_append {core : List Char} (h : Solid core) (gap : List Char) :
    trim (core ++ gap) = core ++ trimEnd gap := by
  obtain ⟨c, rest, hfirst, hc⟩ := h.first
  obtain ⟨front, d, hlast, hd⟩ := h.last
  have hstart : (core ++ gap).dropWhile isWhite = core ++ gap := by
    rw [hfirst, List.cons_append, List.dropWhile_cons_of_neg (by simp [hc])]
  rw [trim, hstart, hlast]
  simp only [trimEnd, List.reverse_append, List.dropWhile_append]
  split
  · rename_i hempty
    have hnone : gap.reverse.dropWhile isWhite = [] := by simpa using hempty
    rw [hnone]
    simp [hd]
  · simp

theorem trimEnd_prefix (cs : List Char) : trimEnd cs <+: cs := by
  have h := List.dropWhile_suffix (l := cs.reverse) isWhite
  rw [trimEnd, ← List.reverse_suffix, List.reverse_reverse]
  exact h

theorem Padded.append_blank {text gap : List Char} (h : Padded text) (hne : text ≠ [])
    (hgap : Blank gap) : Padded (text ++ gap) := by
  cases h with
  | nil => exact absurd rfl hne
  | intro solid blank =>
      rw [List.append_assoc]
      exact .intro solid (blank.append hgap)

theorem Padded.append {a b : List Char} (ha : Padded a) (hb : Padded b) : Padded (a ++ b) := by
  cases hb with
  | nil => simpa using ha
  | intro solid blank =>
      cases ha with
      | nil => simpa using Padded.intro solid blank
      | @intro core gap first _ =>
          have h := Padded.intro (first.around gap solid) blank
          simpa using h

theorem Solid.padded {text : List Char} (h : Solid text) : Padded text := by
  have hpadded := Padded.intro h .nil
  simpa using hpadded

theorem Padded.solid {text : List Char} (h : Padded text) (hne : text ≠ []) :
    ∃ core gap, text = core ++ gap ∧ Solid core ∧ Blank gap := by
  cases h with
  | nil => exact absurd rfl hne
  | intro solid blank => exact ⟨_, _, rfl, solid, blank⟩

/-! ## Spans that are read -/

theorem Cursor.Consumes.spanTo_eq {c d : Cursor} {text : List Char} (h : c.Consumes text d) :
    c.spanTo d = ⟨c.offset, String.ofList text⟩ := by
  rw [Cursor.spanTo, h.upTo_eq]

theorem liesIn_append {offset : Nat} (front : List Char) {text : List Char} (back : List Char)
    (hne : text ≠ []) :
    Span.LiesIn ⟨offset + byteLength front, String.ofList text⟩ offset
      (front ++ (text ++ back)) := by
  refine ⟨by simpa using hne, front, back, by simp, rfl⟩

/-! ## Attribute lists -/

theorem readSuperCall?_span {c d : Cursor} {call : SuperCall}
    (h : readSuperCall? c = some (call, d)) :
    ∃ text, c.Consumes text d ∧ text ≠ [] ∧ call.span = ⟨c.offset, String.ofList text⟩ := by
  obtain ⟨token, htoken, h⟩ := Option.map_eq_some_iff.1 h
  cases h
  have hconsumes := Cursor.past_consumes (SuperToken.lexeme_prefix htoken)
  exact ⟨_, hconsumes, token.lexeme_ne_nil, hconsumes.spanTo_eq⟩

/-- A super call that is an entry lies where the entry is read. -/
theorem readEntry_laid {c d : Cursor} {superAllowed : Bool} {entry : Entry}
    (h : readEntry superAllowed c = .ok (entry, d)) :
    ∃ text, c.Consumes text d ∧
      ∀ call, entry.superCall? = some call → call.span.LiesIn c.offset text := by
  unfold readEntry at h
  split at h
  · rename_i call next hcall
    obtain ⟨last, hfiller, h⟩ := map_eq_ok_iff.1 h
    cases h
    split at hcall
    · obtain ⟨text, hconsumes, hne, hspan⟩ := readSuperCall?_span hcall
      obtain ⟨filler, hfiller⟩ := skipFiller_consumes hfiller
      refine ⟨text ++ filler, hconsumes.trans hfiller, ?_⟩
      intro call' hcall'
      cases hcall'
      rw [hspan]
      exact liesIn_append [] filler hne
    · cases hcall
  · obtain ⟨⟨setting, last⟩, hsetting, h⟩ := map_eq_ok_iff.1 h
    cases h
    obtain ⟨text, hconsumes, -⟩ := readAttribute_consumes hsetting
    exact ⟨text, hconsumes, by simp [Entry.superCall?]⟩

/-- The super calls among the entries lie before the closing parenthesis. -/
theorem readEntries_laid {c d : Cursor} {superAllowed : Bool} {entries : List Entry}
    (h : readEntries superAllowed c = .ok (entries, d)) :
    ∃ text, c.Consumes (text ++ [')']) d ∧
      ∀ entry ∈ entries, ∀ call, entry.superCall? = some call →
        call.span.LiesIn c.offset text := by
  induction superAllowed, c using readEntries.induct generalizing entries d with
  | case1 superAllowed c fault hread =>
      rw [readEntries_eq, hread] at h
      cases h
  | case2 superAllowed c entry next hread hclose =>
      obtain ⟨text, hconsumes, hcalls⟩ := readEntry_laid hread
      rw [readEntries_eq, hread] at h
      simp only [bind, Except.bind, hclose, if_true] at h
      cases h
      refine ⟨text, hconsumes.trans (Cursor.past_current_consumes hclose), ?_⟩
      intro other hother
      rw [List.mem_singleton.1 hother]
      exact hcalls
  | case3 superAllowed c entry next hread hclose hcomma fault hfiller =>
      rw [readEntries_eq, hread] at h
      simp [bind, Except.bind, hcomma, hfiller] at h
  | case4 superAllowed c entry next hread hclose hcomma later hfiller ih =>
      obtain ⟨text, hconsumes, hcalls⟩ := readEntry_laid hread
      obtain ⟨filler, hskipped⟩ := skipFiller_consumes hfiller
      rw [readEntries_eq, hread] at h
      simp only [bind, Except.bind, if_neg hclose, if_pos hcomma, hfiller] at h
      split at h
      · cases h
      · rename_i r hr
        cases h
        obtain ⟨rest, hrest, hothers⟩ := ih hr
        have hfront := (hconsumes.trans (Cursor.past_current_consumes hcomma)).trans hskipped
        refine ⟨text ++ [','] ++ filler ++ rest, by simpa using hfront.trans hrest, ?_⟩
        intro other hother call hcall
        rcases List.mem_cons.1 hother with rfl | hother
        · have hlies := @Span.LiesIn.before _ _ _ ([','] ++ filler ++ rest) (hcalls call hcall)
          simpa using hlies
        · have hlies := hothers other hother call hcall
          rw [hfront.offset_eq] at hlies
          exact hlies.behind
  | case5 superAllowed c entry next hread hclose hcomma =>
      rw [readEntries_eq, hread] at h
      simp [bind, Except.bind, hclose, hcomma] at h

/-- An attribute list goes from its opening to its closing parenthesis, and its super call
lies between them. -/
theorem readAttributeGroup_laid {c d : Cursor} {group : AttributeGroup}
    (hopen : c.current? = some '(') (h : readAttributeGroup c = .ok (group, d)) :
    ∃ text, c.Consumes ('(' :: (text ++ [')'])) d ∧
      group.span = ⟨c.offset, String.ofList ('(' :: (text ++ [')']))⟩ ∧
      ∀ call, group.superCall = some call → call.span.LiesIn (c.offset + 1) text := by
  obtain ⟨inner, hfiller, h⟩ := bind_eq_ok_iff.1 h
  obtain ⟨filler, hskipped⟩ := skipFiller_consumes hfiller
  have hfront := (Cursor.past_current_consumes hopen).trans hskipped
  split at h
  · rename_i hclose
    cases h
    have hconsumes : c.Consumes ('(' :: (filler ++ [')'])) (inner.past [')']) := by
      simpa using hfront.trans (Cursor.past_current_consumes hclose)
    exact ⟨filler, hconsumes, hconsumes.spanTo_eq, by simp⟩
  · obtain ⟨⟨entries, last⟩, hentries, h⟩ := bind_eq_ok_iff.1 h
    cases h
    obtain ⟨text, hrest, hcalls⟩ := readEntries_laid hentries
    have hconsumes : c.Consumes ('(' :: (filler ++ text ++ [')'])) d := by
      simpa using hfront.trans hrest
    refine ⟨filler ++ text, hconsumes, hconsumes.spanTo_eq, ?_⟩
    intro call hcall
    obtain ⟨entry, hentry, hsuper⟩ := List.exists_of_findSome?_eq_some hcall
    have hlies := hcalls entry hentry call hsuper
    have hoffset : inner.offset = c.offset + 1 + byteLength filler := by
      rw [hfront.offset_eq, byteLength_append, ← Nat.add_assoc]
      rfl
    rw [hoffset] at hlies
    exact hlies.behind

/-! ## Headings -/

theorem readMark_padded (c : Cursor) : ∃ text, c.Consumes text (readMark c).2 ∧ Padded text := by
  unfold readMark
  split
  · rename_i hmark
    exact ⟨['@'], Cursor.past_current_consumes hmark, (Solid.singleton (by decide)).padded⟩
  · exact ⟨[], .refl c, .nil⟩

theorem readTag_padded (c : Cursor) :
    ∃ text, c.Consumes text (readTag c).2 ∧ Padded text ∧ ((readTag c).1.isSome → text ≠ []) := by
  unfold readTag
  dsimp only
  split
  · exact ⟨[], .refl c, .nil, by simp⟩
  · rename_i hempty
    have hne : NameClass.tag.lexeme c.rest ≠ [] := by simpa using hempty
    exact ⟨_, (Cursor.past_consumes (NameClass.lexeme_prefix _ _)).trans
      (Cursor.skipGaps_consumes _), .intro (solid_lexeme hne) (blank_takeWhile _), by simp [hne]⟩

theorem Padded.append_slot {front : List Char} (hfront : Padded front) (cs : List Char) :
    Padded (front ++ NameClass.element.lexeme cs) := by
  by_cases hempty : NameClass.element.lexeme cs = []
  · simpa [hempty] using hfront
  · exact hfront.append (solid_lexeme hempty).padded

/-- Behind a text that ends in a gap, the slots of a name list end in one. -/
theorem readSlots_padded (c : Cursor) {front : List Char} (hfront : Padded front)
    (hne : front ≠ []) : ∃ text, c.Consumes text (readSlots c).2 ∧ Padded (front ++ text) := by
  induction c using readSlots.induct generalizing front with
  | case1 c name next hcomma =>
      rename_i ih
      have hname : Padded (front ++ name) := hfront.append_slot c.rest
      have hcommaText : Padded (front ++ name ++ (c.past name).rest.takeWhile isGap ++ [',']) :=
        (hname.append_blank (by simp [hne]) (blank_takeWhile _)).append
          (Solid.singleton (by decide)).padded
      obtain ⟨text, htext, hpadded⟩ := ih
        (hcommaText.append_blank (by simp) (blank_takeWhile (next.past [',']).rest)) (by simp)
      rw [readSlots, if_pos hcomma]
      exact ⟨_, (Cursor.past_consumes (NameClass.element.lexeme_prefix c.rest)).trans
        ((Cursor.skipGaps_consumes _).trans ((Cursor.past_current_consumes hcomma).trans
          ((Cursor.skipGaps_consumes _).trans htext))), by simpa using hpadded⟩
  | case2 c name next =>
      rename_i hcomma
      have hname : Padded (front ++ name) := hfront.append_slot c.rest
      have hlast := hname.append_blank (by simp [hne]) (blank_takeWhile (c.past name).rest)
      rw [readSlots, if_neg hcomma]
      exact ⟨_, (Cursor.past_consumes (NameClass.element.lexeme_prefix c.rest)).trans
        (Cursor.skipGaps_consumes _), by simpa using hlast⟩

theorem readNames_padded (c : Cursor) :
    ∃ text, c.Consumes text (readNames c).2 ∧ Padded text ∧
      ((readNames c).1.isSome → text ≠ []) := by
  unfold readNames
  split
  · rename_i hslash
    simp only [Bool.and_eq_true, decide_eq_true_eq] at hslash
    have hslashText : Padded (['/'] ++ (c.past ['/']).rest.takeWhile isGap) :=
      .intro (.singleton (by decide)) (blank_takeWhile _)
    obtain ⟨text, htext, hpadded⟩ := readSlots_padded (c.past ['/']).skipGaps hslashText (by simp)
    exact ⟨_, (Cursor.past_current_consumes hslash.1).trans
      ((Cursor.skipGaps_consumes _).trans htext), by simpa using hpadded, by simp⟩
  · exact ⟨[], .refl c, .nil, by simp⟩

theorem readAttributes_laid {c d : Cursor} {attributes : Option AttributeGroup}
    (h : readAttributes c = .ok (attributes, d)) :
    attributes = none ∧ d = c ∨
      ∃ group text gap, attributes = some group ∧ c.Consumes (text ++ gap) d ∧ Solid text ∧
        Blank gap ∧ group.span = ⟨c.offset, String.ofList text⟩ ∧
        ∀ call, group.superCall = some call → call.span.LiesIn c.offset text ∧
          c.offset < call.span.offset ∧ call.span.finish < group.span.finish := by
  unfold readAttributes at h
  split at h
  · rename_i hopen
    obtain ⟨⟨group, next⟩, hgroup, h⟩ := map_eq_ok_iff.1 h
    cases h
    obtain ⟨text, hconsumes, hspan, hcalls⟩ := readAttributeGroup_laid hopen hgroup
    have hsolid : Solid ('(' :: (text ++ [')'])) :=
      (Solid.singleton (c := '(') (by decide)).around text (Solid.singleton (by decide))
    refine .inr ⟨group, _, _, rfl, hconsumes.trans next.skipGaps_consumes, hsolid,
      blank_takeWhile _, hspan, ?_⟩
    intro call hcall
    have hlies := hcalls call hcall
    have hle := hlies.le_offset
    have hfinish := hlies.finish_le
    refine ⟨?_, by omega, ?_⟩
    · have hinside : call.span.LiesIn (c.offset + byteLength ['(']) (text ++ [')']) :=
        hlies.before
      simpa using hinside.behind
    · have hend : group.span.finish = c.offset + 1 + byteLength text + 1 := by
        rw [hspan, Span.finish, String.toList_ofList, byteLength_cons, byteLength_append]
        show c.offset + (1 + (byteLength text + 1)) = _
        omega
      omega
  · cases h
    exact .inl ⟨rfl, rfl⟩

/-- A heading is solid up to the gap behind it, and its attribute list is laid in it. -/
theorem readHeading_laid {c d : Cursor} {heading : Heading}
    (h : readHeading c = .ok (heading, d)) :
    ∃ core gap, c.Consumes (core ++ gap) d ∧ Solid core ∧ Blank gap ∧
      heading.LaidIn c.offset core := by
  unfold readHeading at h
  dsimp only at h
  obtain ⟨mark, hmark, hmarkPadded⟩ := readMark_padded c
  obtain ⟨tag, htag, htagPadded, htagNe⟩ := readTag_padded (readMark c).2
  obtain ⟨names, hnames, hnamesPadded, hnamesNe⟩ := readNames_padded (readTag (readMark c).2).2
  have hfront := hmark.trans (htag.trans hnames)
  have hpadded := hmarkPadded.append (htagPadded.append hnamesPadded)
  split at h
  · cases h
  · rename_i hsome
    have hne : mark ++ (tag ++ names) ≠ [] := by
      intro hnil
      simp only [List.append_eq_nil_iff] at hnil
      rw [Bool.and_eq_true, Option.isNone_iff_eq_none, Option.isNone_iff_eq_none] at hsome
      refine hsome ⟨?_, ?_⟩
      · exact Option.not_isSome_iff_eq_none.1 fun hs => htagNe hs hnil.2.1
      · exact Option.not_isSome_iff_eq_none.1 fun hs => hnamesNe hs hnil.2.2
    obtain ⟨⟨attributes, last⟩, hattributes, h⟩ := map_eq_ok_iff.1 h
    cases h
    obtain ⟨core, gap, hcore, hsolid, hblank⟩ := hpadded.solid hne
    rw [hcore] at hfront
    rcases readAttributes_laid hattributes with
      ⟨rfl, rfl⟩ | ⟨group, text, last, rfl, hconsumes, htext, hlast, hspan, hcalls⟩
    · exact ⟨core, gap, hfront, hsolid, hblank, by simp [Heading.LaidIn]⟩
    · have hoffset := hfront.offset_eq
      have hbehind : c.offset < group.span.offset := by
        have hpos : byteLength core ≠ 0 := by simpa using hsolid.ne_nil
        rw [hspan, hoffset, byteLength_append]
        dsimp only
        omega
      refine ⟨core ++ (gap ++ text), last, by simpa using hfront.trans hconsumes,
        hsolid.around gap htext, hlast, ?_⟩
      intro group' hgroup
      cases hgroup
      refine ⟨?_, hbehind, ?_⟩
      · rw [hspan, hoffset]
        simpa using liesIn_append (core ++ gap) [] htext.ne_nil
      · intro call hcall
        obtain ⟨hlies, hstart, hend⟩ := hcalls call hcall
        rw [hspan] at hend ⊢
        exact ⟨by simpa using hlies, hstart, hend⟩

/-! ## Content -/

/-- Between the cursors is the text of a complete node and a gap, or the text of a heading
with a gap and the opening brace behind it. -/
def Item.LaidBetween (c d : Cursor) : Item → Prop
  | .leaf node => ∃ gap, c.Consumes (node.span.text.toList ++ gap) d ∧ Blank gap ∧
      node.span.offset = c.offset ∧ node.span.text ≠ "" ∧ node.IsFlat
  | .opening heading => ∃ core gap, c.Consumes (core ++ gap ++ ['\x7b']) d ∧ Solid core ∧
      Blank gap ∧ heading.LaidIn c.offset core

/-- A node that is no element is laid between the cursors that it is read from. -/
theorem laidBetween_of_consumes {c d : Cursor} {text : List Char} {node : Node}
    (h : c.Consumes text d) (hne : text ≠ []) (hspan : node.span = ⟨c.offset, String.ofList text⟩)
    (hflat : node.IsFlat) : (Item.leaf node).LaidBetween c d :=
  ⟨[], by simpa [hspan] using h, .nil, by rw [hspan], by simpa [hspan] using hne, hflat⟩

theorem readElement_laid {c d : Cursor} {item : Item} (h : readElement c = .ok (item, d)) :
    item.LaidBetween c d := by
  obtain ⟨⟨heading, next⟩, hheading, h⟩ := map_eq_ok_iff.1 h
  obtain ⟨core, gap, hconsumes, hsolid, hblank, hparts⟩ := readHeading_laid hheading
  dsimp only at h
  split at h
  · rename_i hbrace
    cases h
    exact ⟨core, gap, hconsumes.trans (Cursor.past_current_consumes hbrace), hsolid, hblank,
      hparts⟩
  · cases h
    obtain ⟨dropped, hdropped⟩ := trimEnd_prefix gap
    have hspan : (heading.node none c d).span = ⟨c.offset, String.ofList (core ++ trimEnd gap)⟩ := by
      rw [Heading.node, hconsumes.upTo_eq, hsolid.trim_append]
      rfl
    have hflat : (heading.node none c d).IsFlat := by
      rw [Heading.node, hconsumes.upTo_eq, hsolid.trim_append]
      simpa [Node.IsFlat] using hparts.before
    refine ⟨dropped, ?_, fun x hx => hblank x ?_, by rw [hspan], ?_, hflat⟩
    · rw [hspan, String.toList_ofList, List.append_assoc, hdropped]
      exact hconsumes
    · rw [← hdropped]
      exact List.mem_append_right _ hx
    · simp [hspan, hsolid.ne_nil]

/-- Every item is laid between the cursors that it is read from. -/
theorem readItem_laid {c d : Cursor} {inBraces : Bool} {item : Item}
    (h : readItem inBraces c = .ok (item, d)) : item.LaidBetween c d := by
  unfold readItem at h
  split at h
  · exact readElement_laid h
  · rename_i first rest hrest
    split at h
    · obtain ⟨⟨token, next⟩, htoken, h⟩ := map_eq_ok_iff.1 h
      cases h
      have hconsumes := readQuoted_consumes hrest htoken
      exact laidBetween_of_consumes hconsumes token.lexeme_ne_nil hconsumes.spanTo_eq trivial
    · split at h
      · obtain ⟨⟨token, next⟩, htoken, h⟩ := map_eq_ok_iff.1 h
        cases h
        have hconsumes := readComment_consumes htoken
        exact laidBetween_of_consumes hconsumes token.lexeme_ne_nil hconsumes.spanTo_eq trivial
      · split at h
        · rename_i call next hcall
          cases h
          split at hcall
          · obtain ⟨text, hconsumes, hne, hspan⟩ := readSuperCall?_span hcall
            exact laidBetween_of_consumes hconsumes hne hspan trivial
          · cases hcall
        · exact readElement_laid h

/-- From a heading to the closing brace, nothing is trimmed. -/
theorem Solid.trim_braces {core : List Char} (h : Solid core) (gap interior : List Char) :
    trim (core ++ gap ++ '\x7b' :: (interior ++ ['\x7d'])) =
      core ++ gap ++ '\x7b' :: (interior ++ ['\x7d']) := by
  have hsolid := h.around (gap ++ '\x7b' :: interior) (Solid.singleton (c := '\x7d') (by decide))
  have htrim := hsolid.trim_append []
  simpa using htrim

/-- Content that is read is laid in the text that it is read from. -/
theorem Reads.laid {inBraces : Bool} {c d : Cursor} {nodes : List Node}
    (h : Reads inBraces c nodes d) : ∃ text, c.Consumes text d ∧ Laid c.offset text nodes := by
  induction h with
  | @nil inBraces c => exact ⟨[], .refl c, .nil .nil⟩
  | @leaf inBraces c d e node nodes item rest ih =>
      obtain ⟨gap, hitem, hgap, hstart, hne, hflat⟩ := readItem_laid item
      obtain ⟨text, htext, hlaid⟩ := ih
      have hfront := c.skipGaps_consumes
      rw [hfront.offset_eq] at hstart
      have hrest : Laid node.span.finish (gap ++ text) nodes := by
        refine Laid.behind_blank hgap ?_
        have hoffset : d.offset = node.span.finish + byteLength gap := by
          rw [hitem.offset_eq, hfront.offset_eq, byteLength_append, Span.finish, hstart]
          omega
        rw [← hoffset]
        exact hlaid
      exact ⟨_, by simpa using hfront.trans (hitem.trans htext),
        .flat (blank_takeWhile _) hstart hne hflat hrest⟩
  | @element inBraces c d e f heading content nodes item inside brace rest ihInside ih =>
      obtain ⟨core, gap, hitem, hsolid, hgap, hparts⟩ := readItem_laid item
      obtain ⟨interior, hinterior, hcontent⟩ := ihInside
      obtain ⟨text, htext, hlaid⟩ := ih
      have hfront := c.skipGaps_consumes
      have hback := e.skipGaps_consumes
      have hbraces : c.skipGaps.Consumes
          (core ++ gap ++ '\x7b' :: (interior ++ e.rest.takeWhile isGap ++ ['\x7d']))
          (e.skipGaps.past ['\x7d']) := by
        have hall := hitem.trans (hinterior.trans (hback.trans (Cursor.past_current_consumes brace)))
        simpa using hall
      have hnode : heading.node (some content) c.skipGaps (e.skipGaps.past ['\x7d']) =
          .element ⟨heading, some content, c.skipGaps.offset, String.ofList
            (core ++ gap ++ '\x7b' :: (interior ++ e.rest.takeWhile isGap ++ ['\x7d']))⟩ := by
        rw [Heading.node, hbraces.upTo_eq, hsolid.trim_braces]
      have hd : d.offset = c.skipGaps.offset + byteLength (core ++ gap) + 1 := by
        rw [hitem.offset_eq, byteLength_append, ← Nat.add_assoc]
        rfl
      rw [hd] at hcontent
      have hrest : Laid (Span.finish ⟨c.skipGaps.offset, String.ofList
          (core ++ gap ++ '\x7b' :: (interior ++ e.rest.takeWhile isGap ++ ['\x7d']))⟩) text
          nodes := by
        rw [Span.finish, String.toList_ofList, ← hbraces.offset_eq]
        exact hlaid
      have hall := Laid.braced (blank_takeWhile c.rest) hfront.offset_eq String.toList_ofList
        hparts.before (hcontent.append_blank (blank_takeWhile e.rest)) hrest
      rw [String.toList_ofList] at hall
      rw [hnode]
      exact ⟨_, hfront.trans (hbraces.trans htext), hall⟩

/-! ## Elements -/

/-- The ranges of the parts of an element. -/
structure Element.RangesInside (e : Element) : Prop where
  /-- The attribute list starts behind the element and ends with it or, before braces,
  earlier. -/
  attributes : ∀ group, e.heading.attributes = some group →
    e.span.offset < group.span.offset ∧ group.span.finish ≤ e.span.finish ∧
      (e.content.isSome = true → group.span.finish < e.span.finish)
  /-- The super call of the attribute list is between the parentheses. -/
  superCall : ∀ group, e.heading.attributes = some group → ∀ call, group.superCall = some call →
    group.span.offset < call.span.offset ∧ call.span.finish < group.span.finish
  /-- Children start behind the element and end before it. -/
  children : ∀ nodes, e.content = some nodes → ∀ node ∈ nodes,
    e.span.offset < node.span.offset ∧ node.span.finish < e.span.finish
  /-- Children are disjoint and in order. -/
  siblings : ∀ nodes, e.content = some nodes →
    (nodes.map Node.span).Pairwise fun a b => a.finish ≤ b.offset
  /-- The text of an element with braces ends in the closing brace. Between the braces, behind
  the heading, are its children and gaps alone. -/
  braces : ∀ nodes, e.content = some nodes → ∃ head interior,
    e.span.text.toList = head ++ '\x7b' :: (interior ++ ['\x7d']) ∧
      (∀ group, e.heading.attributes = some group →
        group.span.finish ≤ e.span.offset + byteLength head) ∧
      Tiled (e.span.offset + byteLength head + 1) interior (nodes.map Node.span)

theorem Element.IsLaid.finish_eq {e : Element} {head interior : List Char}
    (h : e.span.text.toList = head ++ '\x7b' :: (interior ++ ['\x7d'])) :
    e.span.finish = e.span.offset + byteLength head + 1 + byteLength interior + 1 := by
  rw [Span.finish, h, byteLength_append, byteLength_cons, byteLength_append]
  show _ + (_ + (1 + (_ + 1))) = _
  omega

theorem Element.IsLaid.rangesInside {e : Element} (h : e.IsLaid) : e.RangesInside := by
  constructor
  · intro group hgroup
    obtain ⟨hlies, hstart, -⟩ := h.attributes group hgroup
    refine ⟨hstart, hlies.finish_le, fun hcontent => ?_⟩
    obtain ⟨nodes, hnodes⟩ := Option.isSome_iff_exists.1 hcontent
    obtain ⟨head, interior, htext, hparts, -⟩ := h.content nodes hnodes
    have hhead := (hparts group hgroup).1.finish_le
    rw [Element.IsLaid.finish_eq htext]
    omega
  · intro group hgroup
    exact fun call hcall => ((h.attributes group hgroup).2.2 call hcall).2
  · intro nodes hnodes node hnode
    obtain ⟨head, interior, htext, -, htiled⟩ := h.content nodes hnodes
    have hlies := htiled.liesIn node.span (List.mem_map_of_mem hnode)
    have hle := hlies.le_offset
    have hfinish := hlies.finish_le
    rw [Element.IsLaid.finish_eq htext]
    omega
  · intro nodes hnodes
    obtain ⟨head, interior, -, -, htiled⟩ := h.content nodes hnodes
    exact htiled.pairwise
  · intro nodes hnodes
    obtain ⟨head, interior, htext, hparts, htiled⟩ := h.content nodes hnodes
    exact ⟨head, interior, htext, fun group hgroup => (hparts group hgroup).1.finish_le, htiled⟩

/-! ## Documents -/

/-- The spans of all records of a document: its declaration, its nodes at any depth, their
attribute lists and the super calls in these. -/
def Block.records (block : Block) : List Span :=
  block.declaration.toList.map (·.span) ++ block.preorder.flatMap fun entry => entry.2.records

/-- The spans of the declaration and of the nodes outside all elements. -/
def Block.topSpans (block : Block) : List Span :=
  block.declaration.toList.map (·.span) ++ block.content.map Node.span

/-- The ranges of the records of a document in its source. -/
structure Block.RangesIn (block : Block) (source : List Char) : Prop where
  /-- Every record has the text that the source holds in its range, and it is not empty. -/
  exact : ∀ span ∈ block.records, span.text ≠ "" ∧ ∃ before after,
    source = before ++ (span.text.toList ++ after) ∧ byteLength before = span.offset
  /-- The nodes outside all elements are disjoint and in order, and the declaration is between
  the comments before it and all other nodes. -/
  siblings : ∃ comments nodes, block.content = comments ++ nodes ∧
    (comments.map Node.span ++ block.declaration.toList.map (·.span) ++
      nodes.map Node.span).Pairwise fun a b => a.finish ≤ b.offset
  /-- In preorder, the ranges of nodes start one behind the other. -/
  preorder : block.preorder.Pairwise fun a b => a.2.span.offset < b.2.span.offset
  /-- The parts of elements at any depth have their ranges inside them. -/
  elements : ∀ entry ∈ block.preorder, ∀ e, entry.2 = .element e → e.RangesInside
  /-- Every character outside the ranges of the declaration and of the nodes outside all
  elements is a gap. -/
  covered : ∀ before c after, source = before ++ c :: after → isGap c = true ∨
    ∃ span ∈ block.topSpans, span.offset ≤ byteLength before ∧ byteLength before < span.finish

/-- What is read of a declaration is its text. -/
theorem readDeclaration_laid {c d : Cursor} {declaration : Option Declaration}
    (h : readDeclaration c = .ok (declaration, d)) :
    declaration = none ∧ d = c ∨ ∃ decl text, declaration = some decl ∧ c.Consumes text d ∧
      text ≠ [] ∧ decl.span = ⟨c.offset, String.ofList text⟩ := by
  unfold readDeclaration at h
  split at h
  · rename_i hmark
    dsimp only at h
    split at h
    · cases h
    · cases h
      have hconsumes := (Cursor.past_current_consumes hmark).trans
        (Cursor.past_consumes (NameClass.block.lexeme_prefix (c.past ['#']).rest))
      exact .inr ⟨_, _, rfl, hconsumes, by simp, hconsumes.spanTo_eq⟩
  · cases h
    exact .inl ⟨rfl, rfl⟩

/-- A document is laid in its source: comments, the declaration and the other nodes. -/
structure Block.LaidAs (block : Block) (source : List Char) (comments nodes : List Node)
    (front middle back : List Char) : Prop where
  content : block.content = comments ++ nodes
  source : source = front ++ (middle ++ back)
  comments : Laid 0 front comments
  declaration : Tiled (byteLength front) middle (block.declaration.toList.map (·.span))
  nodes : Laid (byteLength front + byteLength middle) back nodes

theorem parse_laid {source : String} {block : Block} (h : parse source = .ok block) :
    ∃ comments nodes front middle back,
      block.LaidAs source.toList comments nodes front middle back := by
  obtain ⟨⟨comments, afterComments⟩, hcomments, hread⟩ := bind_eq_ok_iff.1 (readBlock_of_parse h)
  obtain ⟨⟨declaration, afterDeclaration⟩, hdeclaration, hread⟩ := bind_eq_ok_iff.1 hread
  obtain ⟨nodes, hnodes, hread⟩ := bind_eq_ok_iff.1 hread
  cases hread
  obtain ⟨e, hcommentReads, rfl⟩ := reads_of_readLeadingComments hcomments
  obtain ⟨last, hreads, hend⟩ := readContent_eq_ok_iff.1 hnodes
  obtain ⟨front, hfront, hcommentLaid⟩ := hcommentReads.laid
  obtain ⟨back, hback, hnodeLaid⟩ := hreads.laid
  have hgap := hfront.trans e.skipGaps_consumes
  have hlast := hback.trans last.skipGaps_consumes
  have hfrontLaid := hcommentLaid.append_blank (blank_takeWhile e.rest)
  have hbackLaid := hnodeLaid.append_blank (blank_takeWhile last.rest)
  have hoffset : e.skipGaps.offset = byteLength (front ++ e.rest.takeWhile isGap) := by
    rw [hgap.offset_eq]
    exact Nat.zero_add _
  rcases readDeclaration_laid hdeclaration with
    ⟨rfl, rfl⟩ | ⟨decl, middle, rfl, hmiddle, hne, hspan⟩
  · have hsource := (hgap.trans hlast).rest_eq
    rw [hend, List.append_nil] at hsource
    rw [hoffset] at hbackLaid
    exact ⟨comments, nodes, front ++ e.rest.takeWhile isGap, [],
      back ++ last.rest.takeWhile isGap, rfl, hsource, hfrontLaid, .nil .nil, hbackLaid⟩
  · have hsource : source.toList = _ := (hgap.trans (hmiddle.trans hlast)).rest_eq
    rw [hend, List.append_nil] at hsource
    rw [hmiddle.offset_eq, hoffset] at hbackLaid
    have htile : Tiled decl.span.offset decl.span.text.toList [decl.span] :=
      .singleton (by simpa [hspan] using hne)
    rw [hspan, String.toList_ofList, hoffset] at htile
    refine ⟨comments, nodes, front ++ e.rest.takeWhile isGap, middle,
      back ++ last.rest.takeWhile isGap, rfl, by simpa using hsource, hfrontLaid, ?_, hbackLaid⟩
    simpa [hspan, hoffset] using htile

namespace Block.LaidAs

variable {block : Block} {source : List Char} {comments nodes : List Node}
  {front middle back : List Char}

/-- The declaration and the nodes outside all elements tile the source. -/
theorem tiled (h : block.LaidAs source comments nodes front middle back) :
    Tiled 0 source (comments.map Node.span ++ block.declaration.toList.map (·.span) ++
      nodes.map Node.span) := by
  have hfront : Tiled 0 (front ++ middle) _ :=
    h.comments.tiled.append (by simpa using h.declaration)
  rw [h.source, ← List.append_assoc]
  refine hfront.append ?_
  rw [byteLength_append, Nat.zero_add]
  exact h.nodes.tiled

theorem preorder_eq (h : block.LaidAs source comments nodes front middle back) :
    block.preorder = Node.preorderAll 0 comments ++ Node.preorderAll 0 nodes := by
  rw [Block.preorder, h.content, preorderAll_append]

/-- All records are parts of the source. -/
theorem liesIn_of_mem_records (h : block.LaidAs source comments nodes front middle back) :
    ∀ span ∈ block.records, span.LiesIn 0 source := by
  intro span hspan
  rw [Block.records, h.preorder_eq, List.flatMap_append] at hspan
  simp only [List.mem_append, List.mem_flatMap] at hspan
  rw [h.source]
  rcases hspan with hspan | ⟨entry, hentry, hspan⟩ | ⟨entry, hentry, hspan⟩
  · have hmiddle := @Span.LiesIn.before _ _ _ back (h.declaration.liesIn span hspan)
    exact Span.LiesIn.behind (by simpa using hmiddle)
  · exact (h.comments.liesIn_of_mem_records entry hentry span hspan).before
  · have hback := h.nodes.liesIn_of_mem_records entry hentry span hspan
    exact Span.LiesIn.behind (by simpa using hback.behind)

theorem pairwise_preorder (h : block.LaidAs source comments nodes front middle back) :
    block.preorder.Pairwise fun a b => a.2.span.offset < b.2.span.offset := by
  rw [h.preorder_eq, List.pairwise_append]
  refine ⟨h.comments.pairwise_preorder, h.nodes.pairwise_preorder, fun a ha b hb => ?_⟩
  have hfirst := h.comments.liesIn_of_mem_records a ha a.2.span a.2.span_mem_records
  have hsecond := h.nodes.liesIn_of_mem_records b hb b.2.span b.2.span_mem_records
  have hlt := Span.offset_lt_finish hfirst.1
  have hfinish := hfirst.finish_le
  have hle := hsecond.le_offset
  omega

theorem isLaid_of_mem_preorder (h : block.LaidAs source comments nodes front middle back) :
    ∀ entry ∈ block.preorder, ∀ e, entry.2 = .element e → e.IsLaid := by
  intro entry hentry e he
  rw [h.preorder_eq] at hentry
  rcases List.mem_append.1 hentry with hentry | hentry
  · exact h.comments.isLaid_of_mem_preorder entry hentry e he
  · exact h.nodes.isLaid_of_mem_preorder entry hentry e he

/-- Outside the declaration and the nodes there are only gaps. -/
theorem covers (h : block.LaidAs source comments nodes front middle back)
    {before after : List Char} {c : Char} (hsplit : source = before ++ c :: after) :
    isGap c = true ∨ ∃ span ∈ block.topSpans,
      span.offset ≤ byteLength before ∧ byteLength before < span.finish := by
  rcases h.tiled.covers hsplit with hgap | ⟨span, hspan, hle, hlt⟩
  · exact .inl hgap
  · refine .inr ⟨span, ?_, by simpa using hle, by simpa using hlt⟩
    rw [Block.topSpans, h.content, List.map_append]
    simp only [List.mem_append] at hspan ⊢
    rcases hspan with (hspan | hspan) | hspan
    · exact .inr (.inl hspan)
    · exact .inl hspan
    · exact .inr (.inr hspan)

end Block.LaidAs

/-- **The ranges of a document.**  In every source that can be read, the records have the
ranges that they are written in, those of siblings are disjoint and in order, those of parts
are inside, and outside of all there are only gaps. -/
theorem parse_ranges {source : String} {block : Block} (h : parse source = .ok block) :
    block.RangesIn source.toList := by
  obtain ⟨comments, nodes, front, middle, back, hlaid⟩ := parse_laid h
  constructor
  · intro span hspan
    obtain ⟨hne, before, after, htext, hoffset⟩ := hlaid.liesIn_of_mem_records span hspan
    exact ⟨hne, before, after, htext, by simp [hoffset]⟩
  · exact ⟨comments, nodes, hlaid.content, hlaid.tiled.pairwise⟩
  · exact hlaid.pairwise_preorder
  · intro entry hentry e he
    exact (hlaid.isLaid_of_mem_preorder entry hentry e he).rangesInside
  · intro before c after hsplit
    exact hlaid.covers hsplit

theorem declaredElement_ranges :
    ∃ block, parse "// c\n#b /a(k, super!) \x7b 'x' super! i\x01 \x7d" = .ok block ∧
      block.preorder.map (fun entry => (entry.1, entry.2.span.offset)) =
        [(0, 0), (0, 8), (1, 24), (1, 28), (1, 35)] ∧
      block.RangesIn "// c\n#b /a(k, super!) \x7b 'x' super! i\x01 \x7d".toList := by
  have hread : (parse "// c\n#b /a(k, super!) \x7b 'x' super! i\x01 \x7d").toOption.map
      (fun block => block.preorder.map fun entry => (entry.1, entry.2.span.offset)) =
        some [(0, 0), (0, 8), (1, 24), (1, 28), (1, 35)] := by decide +kernel
  cases hparse : parse "// c\n#b /a(k, super!) \x7b 'x' super! i\x01 \x7d" with
  | error e => simp [hparse, Except.toOption] at hread
  | ok block =>
      rw [hparse] at hread
      exact ⟨block, rfl, Option.some.inj hread, parse_ranges hparse⟩

end BemMarkup.Document

import BemMarkup.Proofs.Document.Relocation

/-!
# Reading headings again

A heading has parts that may be missing, and whether one is there is seen behind the gap.  So a
part is read again, or missed again, where the text behind it starts alike, and a heading where
what is behind it goes on alike.

The parts are read one behind the other, and what is to be known of one is to be known of all
of them together.  `Rereads` says it of a reader, and `Rereads.both` joins two of them.

## Main definitions

* `Piece`: what items and parts of headings look like from the text before them.
* `Rereads`: what a reader has read, it reads again.
* `RereadsSlots`: the same for the slots of a name list, with the gap before them.

## Main results

* `Rereads.both`: parts that are read again one behind the other are read again together.
* `readTag_again`, `readNames_again`, `readAttributes_again`: the parts of a heading.
* `readHeading_again`: headings.
-/

namespace BemMarkup.Document

open Text

/-! ## Pieces of a text -/

/-- A piece of a text, which may be missing, with what is behind it.  It starts with a character
of its own, and if it is a slash, no comment starts with it. -/
structure Piece (core rest : List Char) : Prop where
  gapless : Gapless core
  head : Heads (fun d => isStop d = true ∨ d.isAlpha = true) core
  slash : core = ['/'] → startsComment ('/' :: rest) = false

section Pieces

variable {core core' gap rest rest' : List Char}

theorem Piece.nil : Piece [] rest := ⟨.nil, .nil, by simp⟩

theorem Piece.cons {d : Char} (hgap : isGap d = false) (hd : isStop d = true ∨ d.isAlpha = true)
    (hslash : d ≠ '/') (tail rest : List Char) : Piece (d :: tail) rest :=
  ⟨.cons hgap _, .cons hd _, fun h => absurd (List.cons.inj h).1 hslash⟩

/-- A gap before a piece ends where the piece starts. -/
theorem Piece.dropWhile (h : Piece core rest) (hne : core ≠ []) (rest' : List Char) :
    (core ++ rest').dropWhile isGap = core ++ rest' := by
  cases core with
  | nil => exact absurd rfl hne
  | cons d tail => exact dropWhile_of_gapless (.cons (h.gapless d rfl) _)

theorem Piece.append (h : Piece core (gap ++ (core' ++ rest))) (hne : core ≠ [])
    (hne' : core' ≠ []) : Piece (core ++ (gap ++ core')) rest := by
  cases core with
  | nil => exact absurd rfl hne
  | cons d tail =>
      refine ⟨.cons (h.gapless d rfl) _, .cons (h.head d rfl) _, fun hsingle => ?_⟩
      have hlength := congrArg List.length hsingle
      have hpos := List.length_pos_iff.2 hne'
      simp only [List.cons_append, List.length_cons, List.length_append, List.length_nil] at hlength
      omega

/-- Texts that go on alike do so with a gap and a piece before them. -/
theorem Piece.continues (h : Piece core rest) (hgap : Blank gap) (hrest : Continues rest rest') :
    Continues (gap ++ (core ++ rest)) (gap ++ (core ++ rest')) := by
  have hcore : (gap ++ core).dropWhile isGap = core := by
    rw [dropWhile_of_blank hgap, dropWhile_of_gapless h.gapless]
  have hall : Continues (gap ++ core ++ rest) (gap ++ core ++ rest') :=
    hrest.append (by rw [hcore]; exact h.head) (by rw [hcore]; exact h.slash)
  simpa using hall

/-- No comment starts with a piece of another kind. -/
theorem Piece.startsComment (h : Piece core rest) (hne : core ≠ [])
    (hcomment : startsComment (core ++ rest) = false) (hrest : Continues rest rest') :
    Document.startsComment (core ++ rest') = false := by
  cases core with
  | nil => exact absurd rfl hne
  | cons d tail =>
      cases tail with
      | cons e tail => exact (startsComment_congr d e _ _).trans hcomment
      | nil =>
          by_cases hd : d = '/'
          · subst hd
            exact hrest.slash hcomment
          · exact startsComment_eq_false_of_ne rest' hd

end Pieces

/-! ## Names -/

section Names

variable {cls : NameClass} {cs rest rest' : List Char}

theorem segment_eq_nil_iff {start : Char → Bool} :
    segment start cs = [] ↔ Heads (fun d => start d = false) cs := by
  cases cs with
  | nil => simp [segment, Heads]
  | cons d cs => cases hd : start d <;> simp [segment, Heads, hd]

/-- Where no name is read, none starts. -/
theorem heads_of_lexeme_eq_nil (h : cls.lexeme cs = []) :
    Heads (fun d => cls.isStart d = false) cs := by
  refine segment_eq_nil_iff.1 ?_
  unfold NameClass.lexeme at h
  dsimp only at h
  split at h
  · exact (List.append_eq_nil_iff.1 h).1
  · exact h

/-- No name starts where none starts in a text that is not told apart. -/
theorem StartsAlike.lexeme_eq_nil (h : StartsAlike rest rest') (hrest : cls.lexeme rest = []) :
    cls.lexeme rest' = [] := by
  refine Document.lexeme_eq_nil ?_
  rcases h with hclosed | ⟨hhead, -, -⟩
  · refine (heads_of_stops hclosed.stops).mono fun d hd => ?_
    cases hstart : cls.isStart d with
    | false => rfl
    | true => exact absurd (isNameChar_of_isStart hstart) (by simp [hd.1])
  · intro d hd
    exact heads_of_lexeme_eq_nil hrest d (by rw [← hhead]; exact hd)

theorem heads_behind_segment {start : Char → Bool} (hne : segment start cs ≠ [])
    (h : cs = segment start cs ++ rest) : Heads (fun d => isNameChar d = false) rest := by
  cases cs with
  | nil => simp [segment] at hne
  | cons c cs =>
      by_cases hc : start c = true
      · rw [segment, if_pos hc, List.cons_append] at h
        have hrest : rest = cs.dropWhile isNameChar := by
          have hsplit := List.takeWhile_append_dropWhile (p := isNameChar) (l := cs)
          exact List.append_cancel_left ((List.cons.inj h).2.symm.trans hsplit.symm)
        intro d hd
        have hnot := List.head?_dropWhile_not isNameChar cs
        rw [← hrest, hd] at hnot
        simpa using hnot
      · simp [segment, hc] at hne

theorem heads_behind_localPart (hcs : Heads (fun d => isNameChar d = false) cs)
    (h : cs = localPart cs ++ rest) : Heads (fun d => isNameChar d = false) rest := by
  unfold localPart at h
  split at h
  · rename_i second
    dsimp only at h
    split at h
    · rwa [← List.nil_append rest, ← h]
    · rename_i hsecond
      refine heads_behind_segment (by simpa using hsecond) ?_
      exact (List.cons.inj h).2
  · rwa [← List.nil_append rest, ← h]

/-- A name is read up to a character that cannot be in it. -/
theorem heads_behind_lexeme (hne : cls.lexeme cs ≠ []) (h : cs = cls.lexeme cs ++ rest) :
    Heads (fun d => isNameChar d = false) rest := by
  unfold NameClass.lexeme at hne h
  dsimp only at hne h
  split at h
  · rename_i hnamespace
    have hfirst : segment cls.isStart cs ≠ [] := by
      simpa using (Bool.and_eq_true_iff.1 hnamespace).2
    rw [List.append_assoc] at h
    have hbehind := heads_behind_segment hfirst h
    rw [← drop_length_of_append_eq h.symm] at hbehind
    exact heads_behind_localPart hbehind (drop_length_of_append_eq h.symm)
  · rename_i hnamespace
    rw [if_neg hnamespace] at hne
    exact heads_behind_segment hne h

end Names

/-! ## Parts of headings -/

/-- What the reader of a part, or of several parts, has read at a cursor: a piece of the text
and the gap behind it.  Where the piece stands before a text that goes on alike, the reader
reads it again, and where the piece is missing, it is missed again. -/
structure Rereads {α : Type} (read : Cursor → Except Fault (α × Cursor))
    (moved : (Nat → Nat) → α → α) (c : Cursor) (value : α) (core rest : List Char)
    (d : Cursor) : Prop extends Piece core rest where
  rest_eq : c.rest = core ++ rest
  last : d = (c.past core).skipGaps
  solid : core ≠ [] → Solid core
  quiet : ∀ rest', core ≠ [] → Continues rest rest' → SuperToken.read? (core ++ rest') = none
  again : ∀ {c' : Cursor} {rest' : List Char} {f : Nat → Nat},
    c'.rest = (core ++ rest').dropWhile isGap →
    StartsAlike (rest.dropWhile isGap) (rest'.dropWhile isGap) →
    (core ≠ [] → Continues rest rest' ∧ Translates f c c') →
      read c' = .ok (moved f value, (c'.past core).skipGaps)

/-- Reads two parts, one behind the other. -/
def readBoth {α β : Type} (first : Cursor → Except Fault (α × Cursor))
    (second : Cursor → Except Fault (β × Cursor)) (c : Cursor) :
    Except Fault ((α × β) × Cursor) := do
  let (a, next) ← first c
  let (b, last) ← second next
  return ((a, b), last)

section Parts

variable {α β : Type} {first : Cursor → Except Fault (α × Cursor)}
  {second : Cursor → Except Fault (β × Cursor)} {moved : (Nat → Nat) → α → α}
  {moved' : (Nat → Nat) → β → β} {c d e : Cursor} {a : α} {b : β}
  {core core' rest rest' : List Char}

theorem Rereads.rest_behind (h : Rereads first moved c a core rest d) :
    d.rest = rest.dropWhile isGap := by
  rw [h.last, Cursor.skipGaps_rest, Cursor.rest_past h.rest_eq]

/-- Two parts are the first one if the second one is missing. -/
theorem Rereads.both_of_missing (h : Rereads first moved c a core rest d)
    (h' : Rereads second moved' d b [] rest' e) :
    Rereads (readBoth first second) (fun f => Prod.map (moved f) (moved' f)) c (a, b)
      core rest e := by
  have hrest' : rest' = rest.dropWhile isGap := by
    rw [← h.rest_behind, h'.rest_eq, List.nil_append]
  have hsame : rest'.dropWhile isGap = rest.dropWhile isGap := by
    rw [hrest', List.dropWhile_idempotent]
  refine ⟨h.toPiece, h.rest_eq, ?_, h.solid, h.quiet, ?_⟩
  · rw [h'.last, Cursor.past_nil, h.last, Cursor.skipGaps_skipGaps]
  · intro c' behind f hc' halike hcontinues
    have hnext : ((c'.past core).skipGaps).rest = behind.dropWhile isGap := by
      rw [Cursor.skipGaps_rest]
      by_cases hcore : core = []
      · subst hcore
        rw [Cursor.past_nil, hc', List.nil_append, List.dropWhile_idempotent]
      · rw [h.toPiece.dropWhile hcore] at hc'
        rw [Cursor.rest_past hc']
    have hsecond := @Rereads.again _ _ _ _ _ _ _ _ h' _ behind f
      (by rw [hnext, List.nil_append]) (by rw [hsame]; exact halike) (by simp)
    rw [Cursor.past_nil, Cursor.skipGaps_skipGaps] at hsecond
    simp only [readBoth, bind, Except.bind, h.again hc' halike hcontinues, hsecond]
    rfl

/-- Two parts are one from the start of the first one, or of the second one if the first one is
missing, to the end of the second one. -/
theorem Rereads.both_of_piece (hgap : Gapless c.rest) (h : Rereads first moved c a core rest d)
    (h' : Rereads second moved' d b core' rest' e) (hcore' : core' ≠ []) :
    ∃ all, all ≠ [] ∧
      Rereads (readBoth first second) (fun f => Prod.map (moved f) (moved' f)) c (a, b)
        all rest' e := by
  obtain ⟨gap, hgapEq⟩ : ∃ gap, gap = rest.takeWhile isGap := ⟨_, rfl⟩
  have hblank : Blank gap := hgapEq ▸ blank_takeWhile rest
  have hrest : rest = gap ++ (core' ++ rest') := by
    rw [← h'.rest_eq, h.rest_behind, hgapEq, List.takeWhile_append_dropWhile]
  have hnone : core = [] → gap = [] := by
    intro hcore
    rw [hgapEq]
    refine takeWhile_of_gapless ?_
    rwa [← List.nil_append rest, ← hcore, ← h.rest_eq]
  have hfollow : ∀ {behind}, Continues rest' behind →
      Continues rest (gap ++ (core' ++ behind)) := by
    intro behind hbehind
    rw [hrest]
    exact h'.toPiece.continues hblank hbehind
  have hnext : d = (c.past core).past gap := by
    rw [h.last, Cursor.skipGaps, Cursor.rest_past h.rest_eq, hgapEq]
  have hpiece : Piece (core ++ (gap ++ core')) rest' := by
    by_cases hcore : core = []
    · rw [hnone hcore, hcore]
      exact h'.toPiece
    · have hfirst := h.toPiece
      rw [hrest] at hfirst
      exact hfirst.append hcore hcore'
  have hall : core ++ (gap ++ core') ≠ [] := by simp [hcore']
  refine ⟨core ++ (gap ++ core'), hall, ⟨hpiece, ?_, ?_, fun _ => ?_, ?_, ?_⟩⟩
  · rw [h.rest_eq, hrest]
    simp
  · rw [h'.last, hnext]
    simp [Cursor.past_past]
  · by_cases hcore : core = []
    · rw [hnone hcore, hcore]
      exact h'.solid hcore'
    · exact (h.solid hcore).around gap (h'.solid hcore')
  · intro behind _ hbehind
    by_cases hcore : core = []
    · rw [hnone hcore, hcore]
      exact h'.quiet behind hcore' hbehind
    · have hquiet := h.quiet _ hcore (hfollow hbehind)
      simpa using hquiet
  · intro c' behind f hc' halike hcontinues
    obtain ⟨hbehind, hf⟩ := hcontinues hall
    have hwhole : c'.rest = core ++ (gap ++ (core' ++ behind)) := by
      rw [hc', hpiece.dropWhile hall]
      simp
    have hgapless : Gapless (core' ++ behind) := by
      rw [← h'.toPiece.dropWhile hcore' behind]
      exact gapless_dropWhile _
    have hat := Cursor.rest_past hwhole
    have hskip := skipGaps_eq hblank hat hgapless
    have hfirst := @Rereads.again _ _ _ _ _ _ _ _ h c' (gap ++ (core' ++ behind)) f
      (by rw [hc']; simp) (hfollow hbehind).behind fun _ => ⟨hfollow hbehind, hf⟩
    have hsecond := @Rereads.again _ _ _ _ _ _ _ _ h' ((c'.past core).past gap) behind f
      (by rw [Cursor.rest_past hat, h'.toPiece.dropWhile hcore']) halike
      fun _ => ⟨hbehind, hnext ▸ (hf.past core).past gap⟩
    rw [hskip] at hfirst
    simp only [readBoth, bind, Except.bind, hfirst, hsecond]
    simp [Cursor.past_past, pure, Except.pure, Prod.map]

/-- Two parts that are read again one by one are read again together. -/
theorem Rereads.both (hgap : Gapless c.rest) (h : Rereads first moved c a core rest d)
    (h' : Rereads second moved' d b core' rest' e) :
    ∃ all behind, (core ≠ [] ∨ core' ≠ [] → all ≠ []) ∧
      Rereads (readBoth first second) (fun f => Prod.map (moved f) (moved' f)) c (a, b)
        all behind e := by
  by_cases hcore' : core' = []
  · subst hcore'
    exact ⟨core, rest, fun hne => hne.elim id (absurd rfl), h.both_of_missing h'⟩
  · obtain ⟨all, hall, hboth⟩ := h.both_of_piece hgap h' hcore'
    exact ⟨all, rest', fun _ => hall, hboth⟩

/-- A part that is missing is missed again, if that is seen from what is there instead. -/
theorem Rereads.missing (hgap : Gapless c.rest)
    (hagain : ∀ {c' : Cursor} {f : Nat → Nat}, StartsAlike c.rest c'.rest → Gapless c'.rest →
      first c' = .ok (moved f a, c')) : Rereads first moved c a [] c.rest c := by
  refine ⟨.nil, rfl, ?_, fun hne => absurd rfl hne, fun _ hne => absurd rfl hne, ?_⟩
  · rw [Cursor.past_nil, skipGaps_of_gapless hgap]
  · intro c' rest' f hc' halike _
    rw [List.nil_append] at hc'
    have hgap' : Gapless c'.rest := hc' ▸ gapless_dropWhile rest'
    rw [dropWhile_of_gapless hgap, ← hc'] at halike
    rw [Cursor.past_nil, skipGaps_of_gapless hgap']
    exact hagain halike hgap'

end Parts

section Headings

variable {c d : Cursor}

theorem readTag_of_missing (h : NameClass.tag.lexeme c.rest = []) : readTag c = (none, c) := by
  simp [readTag, h]

/-- A tag that is read is read again. -/
theorem readTag_again (hgap : Gapless c.rest) :
    ∃ core rest, ((readTag c).1.isSome = true → core ≠ []) ∧
      Rereads (fun c => .ok (readTag c)) (fun _ tag => tag) c (readTag c).1 core rest
        (readTag c).2 := by
  by_cases hempty : NameClass.tag.lexeme c.rest = []
  · rw [readTag_of_missing hempty]
    refine ⟨[], c.rest, by simp, .missing hgap fun {c' f} halike _ => ?_⟩
    exact congrArg Except.ok (readTag_of_missing (halike.lexeme_eq_nil hempty))
  · have hread : readTag c = (some (String.ofList (NameClass.tag.lexeme c.rest)),
        (c.past (NameClass.tag.lexeme c.rest)).skipGaps) := by
      simp [readTag, hempty]
    have hconsumes := Cursor.past_consumes (NameClass.tag.lexeme_prefix c.rest)
    have hname := NameClass.lexeme_isName hempty
    have hbehind := heads_behind_lexeme hempty hconsumes.rest_eq
    have hsolid := solid_lexeme hempty
    have hrest := hconsumes.rest_eq
    rw [hread]
    generalize NameClass.tag.lexeme c.rest = name at *
    obtain ⟨first, tail, hfirst, hstart⟩ := head_of_isName hname
    have hpiece : Piece name (c.past name).rest := by
      rw [hfirst]
      refine .cons (isGap_of_isNameChar (isNameChar_of_isStart hstart)) (.inr hstart) ?_ _ _
      rintro rfl
      exact absurd hstart (by decide)
    refine ⟨name, (c.past name).rest, fun _ => hempty, hpiece, hrest, rfl, fun _ => hsolid, ?_, ?_⟩
    · intro rest' _ hcontinues
      exact read?_name_append hname (hcontinues.stops_of_name hbehind)
    · intro c' rest' f hc' halike hcontinues
      rw [hpiece.dropWhile hempty] at hc'
      have hstops := (hcontinues hempty).1.stops_of_name hbehind
      have hlexeme : NameClass.tag.lexeme c'.rest = name := by
        rw [hc']
        exact lexeme_append hname (heads_of_stops hstops)
      simp [readTag, hlexeme, hempty]

theorem readSlots_of_comma {name : List Char} (hname : NameClass.element.lexeme c.rest = name)
    (hcomma : (c.past name).skipGaps.current? = some ',') :
    readSlots c = (nameSlot name :: (readSlots ((c.past name).skipGaps.past [',']).skipGaps).1,
      (readSlots ((c.past name).skipGaps.past [',']).skipGaps).2) := by
  subst hname
  rw [readSlots, if_pos hcomma]

theorem readSlots_of_last {name : List Char} (hname : NameClass.element.lexeme c.rest = name)
    (hcomma : ¬ (c.past name).skipGaps.current? = some ',') :
    readSlots c = ([nameSlot name], (c.past name).skipGaps) := by
  subst hname
  rw [readSlots, if_neg hcomma]

/-- The slots behind a gap are read again.  Before an empty slot at the end there may be a gap,
so what is read starts with the gap before the slots. -/
structure RereadsSlots (c : Cursor) (core rest : List Char) : Prop where
  rest_eq : c.rest = core ++ rest
  last : (readSlots c.skipGaps).2 = (c.past core).skipGaps
  ends : core = [] ∨ ∃ front e, core = front ++ [e] ∧ isWhite e = false
  again : ∀ {c' : Cursor} {rest' : List Char}, c'.rest = core ++ rest' → Continues rest rest' →
    readSlots c'.skipGaps = ((readSlots c.skipGaps).1, (c'.past core).skipGaps)

/-- A slot before a comma is read again with the slots behind the comma. -/
theorem RereadsSlots.of_comma {core rest name : List Char}
    (hlexeme : NameClass.element.lexeme c.skipGaps.rest = name)
    (hcomma : (c.skipGaps.past name).skipGaps.current? = some ',')
    (h : RereadsSlots ((c.skipGaps.past name).skipGaps.past [',']) core rest) :
    ∃ all, RereadsSlots c all rest := by
  have hgap := c.skipGaps_consumes
  have hblank := blank_takeWhile c.rest
  generalize c.rest.takeWhile isGap = gap at hgap hblank
  have hname : c.skipGaps.Consumes name (c.skipGaps.past name) :=
    Cursor.past_consumes (hlexeme ▸ NameClass.element.lexeme_prefix c.skipGaps.rest)
  have hbetween := (c.skipGaps.past name).skipGaps_consumes
  have hblank' := blank_takeWhile (c.skipGaps.past name).rest
  generalize (c.skipGaps.past name).rest.takeWhile isGap = gap' at hbetween hblank'
  have hfront := hgap.trans (hname.trans (hbetween.trans (Cursor.past_current_consumes hcomma)))
  have hvalid : name = [] ∨ NameClass.element.IsName name := by
    by_cases hempty : name = []
    · exact .inl hempty
    · exact .inr (hlexeme ▸ NameClass.lexeme_isName (hlexeme ▸ hempty))
  have hread := readSlots_of_comma hlexeme hcomma
  refine ⟨gap ++ (name ++ (gap' ++ [','])) ++ core, ?_, ?_, .inr ?_, ?_⟩
  · rw [hfront.rest_eq, List.append_assoc _ core, ← h.rest_eq]
  · rw [hread, ← Cursor.past_past, ← hfront.eq_past]
    exact h.last
  · rcases h.ends with rfl | ⟨front, e, rfl, he⟩
    · exact ⟨gap ++ (name ++ gap'), ',', by simp, by decide⟩
    · exact ⟨gap ++ (name ++ (gap' ++ [','])) ++ front, e, by simp, he⟩
  · intro c' rest' hc' hcontinues
    have hall : c'.rest = gap ++ (name ++ (gap' ++ ([','] ++ (core ++ rest')))) := by simp [hc']
    have h1 := Cursor.rest_past hall
    have h2 := Cursor.rest_past h1
    have h3 := Cursor.rest_past h2
    have hgapless : Gapless ([','] ++ (core ++ rest')) := .cons (by decide) _
    have hstops : Stops (gap' ++ ([','] ++ (core ++ rest'))) :=
      Heads.append (fun d hd => isStop_of_isGap (hblank' d hd)) (.cons (by decide) _)
    have hslot := slot_printed hvalid hstops (fun _ => by
      rw [dropWhile_of_blank hblank', dropWhile_of_gapless hgapless]
      exact .cons (by decide) _) h1
    rw [← skipGaps_of_blank hblank hall, skipGaps_eq hblank' h2 hgapless] at hslot
    have hcurrent : (c'.skipGaps.past name).skipGaps.current? = some ',' := by
      rw [hslot.2, Cursor.current?, h3]
      rfl
    rw [hread, readSlots_of_comma hslot.1 hcurrent, hslot.2,
      h.again (Cursor.rest_past h3) hcontinues]
    simp [Cursor.past_past]

theorem head_ne_comma {name : List Char}
    (hcomma : ¬ (c.skipGaps.past name).skipGaps.current? = some ',') :
    ((c.skipGaps.past name).rest.dropWhile isGap).head? ≠ some ',' := by
  rw [← Cursor.skipGaps_rest]
  exact hcomma

/-- An empty slot at the end is read again, without the gap before it. -/
theorem RereadsSlots.of_empty (hlexeme : NameClass.element.lexeme c.skipGaps.rest = [])
    (hcomma : ¬ (c.skipGaps.past []).skipGaps.current? = some ',') :
    RereadsSlots c [] c.rest := by
  have hread := readSlots_of_last hlexeme hcomma
  have hlast := head_ne_comma hcomma
  rw [Cursor.past_nil, Cursor.skipGaps_rest, List.dropWhile_idempotent] at hlast
  refine ⟨rfl, ?_, .inl rfl, ?_⟩
  · rw [hread, Cursor.past_nil, Cursor.past_nil, Cursor.skipGaps_skipGaps]
  · intro c' rest' hc' hcontinues
    rw [List.nil_append] at hc'
    have hlexeme' : NameClass.element.lexeme c'.skipGaps.rest = [] := by
      rw [Cursor.skipGaps_rest, hc']
      exact hcontinues.behind.lexeme_eq_nil (by rw [← Cursor.skipGaps_rest]; exact hlexeme)
    have hcurrent : ¬ (c'.skipGaps.past []).skipGaps.current? = some ',' := by
      rw [Cursor.past_nil, Cursor.skipGaps_skipGaps, Cursor.current?, Cursor.skipGaps_rest, hc']
      exact hcontinues.behind.head_ne (by simp) hlast
    rw [hread, readSlots_of_last hlexeme' hcurrent, Cursor.past_nil, Cursor.past_nil c',
      Cursor.skipGaps_skipGaps]

/-- A name at the end is read again. -/
theorem RereadsSlots.of_name {name : List Char}
    (hlexeme : NameClass.element.lexeme c.skipGaps.rest = name) (hne : name ≠ [])
    (hcomma : ¬ (c.skipGaps.past name).skipGaps.current? = some ',') :
    ∃ core rest, RereadsSlots c core rest := by
  have hgap := c.skipGaps_consumes
  have hblank := blank_takeWhile c.rest
  generalize c.rest.takeWhile isGap = gap at hgap hblank
  have hread := readSlots_of_last hlexeme hcomma
  have hname : c.skipGaps.Consumes name (c.skipGaps.past name) :=
    Cursor.past_consumes (hlexeme ▸ NameClass.element.lexeme_prefix c.skipGaps.rest)
  have hlast := head_ne_comma hcomma
  subst hlexeme
  have hvalid := NameClass.lexeme_isName hne
  have hbehind := heads_behind_lexeme hne hname.rest_eq
  obtain ⟨front, e, hend, he⟩ := (solid_lexeme hne).last
  generalize NameClass.element.lexeme c.skipGaps.rest = name at *
  refine ⟨gap ++ name, (c.skipGaps.past name).rest, ?_, ?_, .inr ⟨gap ++ front, e, ?_, he⟩, ?_⟩
  · rw [(hgap.trans hname).rest_eq]
  · rw [hread, ← Cursor.past_past, ← hgap.eq_past]
  · rw [List.append_assoc, ← hend]
  · intro c' rest' hc' hcontinues
    have hall : c'.rest = gap ++ (name ++ rest') := by simp [hc']
    have hslot := slot_printed (.inr hvalid) (hcontinues.stops_of_name hbehind)
      (fun hnil => absurd hnil hne) (Cursor.rest_past hall)
    rw [← skipGaps_of_blank hblank hall, Cursor.past_past] at hslot
    have hcurrent : ¬ (c'.skipGaps.past name).skipGaps.current? = some ',' := by
      rw [hslot.2, Cursor.current?, Cursor.skipGaps_rest, Cursor.rest_past hc']
      exact hcontinues.behind.head_ne (by simp) hlast
    rw [hread, readSlots_of_last hslot.1 hcurrent, hslot.2]

/-- The slots of a name list are read again. -/
theorem readSlots_again (c : Cursor) : ∃ core rest, RereadsSlots c core rest := by
  generalize hat : c.skipGaps = first
  induction first using readSlots.induct generalizing c with
  | case1 first name next hcomma ih =>
      subst hat
      obtain ⟨core, rest, hothers⟩ := ih (next.past [',']) rfl
      obtain ⟨all, hall⟩ := RereadsSlots.of_comma rfl hcomma hothers
      exact ⟨all, rest, hall⟩
  | case2 first name next hcomma =>
      subst hat
      by_cases hempty : name = []
      · have hcomma' : ¬ (c.skipGaps.past []).skipGaps.current? = some ',' := hempty ▸ hcomma
        exact ⟨[], c.rest, .of_empty hempty hcomma'⟩
      · exact RereadsSlots.of_name rfl hempty hcomma

theorem readNames_of_slash (hat : c.current? = some '/') (hcomment : startsComment c.rest = false) :
    readNames c = (some (readSlots (c.past ['/']).skipGaps).1,
      (readSlots (c.past ['/']).skipGaps).2) := by
  rw [readNames, if_pos (by simp [hat, hcomment])]

theorem readNames_of_missing (h : c.current? = some '/' → startsComment c.rest = true) :
    readNames c = (none, c) := by
  rw [readNames, if_neg]
  simpa using h

/-- A name list that is read is read again. -/
theorem readNames_again (hgap : Gapless c.rest) :
    ∃ core rest, ((readNames c).1.isSome = true → core ≠ []) ∧
      Rereads (fun c => .ok (readNames c)) (fun _ names => names) c (readNames c).1 core rest
        (readNames c).2 := by
  by_cases hslash : c.current? = some '/' ∧ startsComment c.rest = false
  · obtain ⟨hat, hcomment⟩ := hslash
    obtain ⟨core, rest, hrest, hlast, hends, hagain⟩ := readSlots_again (c.past ['/'])
    have hconsumes := Cursor.past_current_consumes hat
    have hall : c.rest = '/' :: (core ++ rest) := by rw [hconsumes.rest_eq, hrest]; rfl
    rw [hall] at hcomment
    rw [readNames_of_slash hat (hall ▸ hcomment)]
    refine ⟨'/' :: core, rest, by simp, ⟨⟨.cons (by decide) _, .cons (.inl (by decide)) _, ?_⟩, ?_,
      ?_, fun _ => ⟨⟨'/', core, rfl, by decide⟩, ?_⟩, ?_, ?_⟩⟩
    · intro hlone
      rw [(List.cons.inj hlone).2] at hcomment
      exact hcomment
    · exact hall
    · rw [hlast, Cursor.past_past]
      rfl
    · rcases hends with rfl | ⟨front, e, rfl, he⟩
      · exact ⟨[], '/', rfl, by decide⟩
      · exact ⟨'/' :: front, e, rfl, he⟩
    · intro rest' _ _
      exact read?_eq_none_of_ne _ (by decide)
    · intro c' rest' f hc' _ hfollow
      have hcontinues := (hfollow (by simp)).1
      have hall' : c'.rest = ['/'] ++ (core ++ rest') := by
        rw [hc', List.cons_append, List.dropWhile_cons_of_neg (by decide)]
        rfl
      have hat' : c'.current? = some '/' := Cursor.current?_of_rest_eq hall'
      have hcomment' : startsComment c'.rest = false := by
        rw [hall']
        cases core with
        | nil => exact hcontinues.slash hcomment
        | cons d core => exact (startsComment_congr '/' d _ _).trans hcomment
      rw [readNames_of_slash hat' hcomment', hagain (Cursor.rest_past hall') hcontinues,
        Cursor.past_past]
      rfl
  · have hmissing : c.current? = some '/' → startsComment c.rest = true := by simpa using hslash
    rw [readNames_of_missing hmissing]
    refine ⟨[], c.rest, by simp, .missing hgap fun {c' f} halike _ => ?_⟩
    refine congrArg Except.ok (readNames_of_missing fun hat => ?_)
    rcases halike with (hcomment | hclosed) | ⟨hhead, hcomment, -⟩
    · exact hcomment
    · exact absurd (by simp) (hclosed '/' hat).2
    · rw [hcomment]
      exact hmissing (hhead.symm.trans hat)

/-- An attribute list that is read is read again. -/
theorem readAttributes_again {attributes : Option AttributeGroup} (hgap : Gapless c.rest)
    (h : readAttributes c = .ok (attributes, d)) :
    ∃ core rest, Rereads readAttributes (fun f => Option.map (AttributeGroup.moved f)) c
      attributes core rest d := by
  unfold readAttributes at h
  split at h
  · rename_i hopen
    obtain ⟨⟨group, next⟩, hgroup, h⟩ := map_eq_ok_iff.1 h
    cases h
    obtain ⟨text, htext, -⟩ := readAttributeGroup_laid hopen hgroup
    have hsolid : Solid ('(' :: (text ++ [')'])) :=
      (Solid.singleton (c := '(') (by decide)).around text (Solid.singleton (by decide))
    refine ⟨'(' :: (text ++ [')']), next.rest,
      ⟨.cons (by decide) (.inl (by decide)) (by decide) _ _,
      htext.rest_eq, ?_, fun _ => hsolid, fun _ _ _ => read?_eq_none_of_ne _ (by decide), ?_⟩⟩
    · rw [← htext.eq_past]
    · intro c' rest' f hc' _ hcontinues
      have hall : c'.rest = '(' :: (text ++ [')']) ++ rest' := by
        rw [hc', List.cons_append, List.dropWhile_cons_of_neg (by decide)]
      have hopen' : c'.current? = some '(' := Cursor.current?_of_rest_eq hall
      rw [readAttributes, if_pos hopen',
        readAttributeGroup_again hopen hgroup htext hall (hcontinues (by simp)).2]
      rfl
  · rename_i hopen
    cases h
    refine ⟨[], c.rest, .missing hgap fun {c' f} halike _ => ?_⟩
    have hopen' : ¬ c'.current? = some '(' := halike.head_ne (by simp) hopen
    rw [readAttributes, if_neg hopen']
    rfl

theorem Rereads.gapless_behind {α : Type} {read : Cursor → Except Fault (α × Cursor)}
    {moved : (Nat → Nat) → α → α} {value : α} {core rest : List Char}
    (h : Rereads read moved c value core rest d) : Gapless d.rest := by
  rw [h.last, Cursor.skipGaps_rest]
  exact gapless_dropWhile _

/-- Reads the tag and the name list of a heading. -/
def readFront (c : Cursor) :
    Except Fault ((Option String × Option (List (Option String))) × Cursor) :=
  readBoth (fun c => .ok (readTag c)) (fun c => .ok (readNames c)) c

theorem readFront_eq (c : Cursor) :
    readFront c = .ok (((readTag c).1, (readNames (readTag c).2).1), (readNames (readTag c).2).2) :=
  rfl

/-- A tag and a name list, one of which is there, are read again. -/
theorem readFront_again {tag : Option String} {names : Option (List (Option String))}
    (h : readFront c = .ok ((tag, names), d)) (hknown : tag.isSome = true ∨ names.isSome = true) :
    ∃ core rest, core ≠ [] ∧
      Rereads readFront (fun _ => Prod.map id id) c (tag, names) core rest d := by
  rw [readFront_eq] at h
  cases h
  have hgap : Gapless c.rest := by
    intro e he
    by_contra hblank
    rw [Bool.not_eq_false] at hblank
    have hstart : NameClass.tag.isStart e = false := by
      cases hstart : NameClass.tag.isStart e with
      | false => rfl
      | true => simp [isGap_of_isNameChar (isNameChar_of_isStart hstart)] at hblank
    have hempty : NameClass.tag.lexeme c.rest = [] := by
      refine lexeme_eq_nil fun e' he' => ?_
      rw [he] at he'
      cases he'
      exact hstart
    have hslash : c.current? ≠ some '/' := by
      intro hslash
      cases he.symm.trans hslash
      exact absurd hblank (by decide)
    rw [readTag_of_missing hempty, readNames_of_missing fun hat => absurd hat hslash] at hknown
    simp at hknown
  obtain ⟨core, rest, hne, hfirst⟩ := readTag_again hgap
  obtain ⟨core', rest', hne', hsecond⟩ := readNames_again hfirst.gapless_behind
  obtain ⟨all, behind, hall, hboth⟩ := Rereads.both hgap hfirst hsecond
  exact ⟨all, behind, hall (hknown.imp hne hne'), hboth⟩

theorem readMark_of_mark (h : c.current? = some '@') : readMark c = (true, c.past ['@']) := by
  rw [readMark, if_pos h]

theorem readMark_of_missing (h : c.current? ≠ some '@') : readMark c = (false, c) := by
  rw [readMark, if_neg h]

/-- Reads a mark and what a reader reads behind it. -/
def readMarked {α : Type} (read : Cursor → Except Fault (α × Cursor)) (c : Cursor) :
    Except Fault ((Bool × α) × Cursor) := do
  let (a, last) ← read (readMark c).2
  return (((readMark c).1, a), last)

theorem readMarked_eq_ok_iff {α : Type} {read : Cursor → Except Fault (α × Cursor)}
    {isHelper : Bool} {a : α} :
    readMarked read c = .ok ((isHelper, a), d) ↔
      read (readMark c).2 = .ok (a, d) ∧ (readMark c).1 = isHelper := by
  unfold readMarked
  constructor
  · intro h
    obtain ⟨⟨a', last⟩, hread, h⟩ := bind_eq_ok_iff.1 h
    cases h
    exact ⟨hread, rfl⟩
  · rintro ⟨hread, rfl⟩
    exact bind_eq_ok_iff.2 ⟨_, hread, rfl⟩

/-- A mark is read again together with what is behind it. -/
theorem Rereads.marked {α : Type} {read : Cursor → Except Fault (α × Cursor)}
    {moved : (Nat → Nat) → α → α} {value : α} {core rest : List Char}
    (h : Rereads read moved (readMark c).2 value core rest d) (hne : core ≠ []) :
    ∃ all, all ≠ [] ∧ Rereads (readMarked read) (fun f => Prod.map id (moved f)) c
      ((readMark c).1, value) all rest d := by
  by_cases hat : c.current? = some '@'
  · rw [readMark_of_mark hat] at h ⊢
    have hconsumes := Cursor.past_current_consumes hat
    refine ⟨'@' :: core, by simp, .cons (by decide) (.inl (by decide)) (by decide) _ _, ?_, ?_,
      fun _ => ?_, fun _ _ _ => read?_eq_none_of_ne _ (by decide), ?_⟩
    · rw [hconsumes.rest_eq, h.rest_eq]
      rfl
    · rw [h.last, Cursor.past_past]
      rfl
    · exact (Solid.singleton (c := '@') (by decide)).around [] (h.solid hne)
    · intro c' rest' f hc' halike hfollow
      obtain ⟨hcontinues, hf⟩ := hfollow (by simp)
      have hall : c'.rest = ['@'] ++ (core ++ rest') := by
        rw [hc', List.cons_append, List.dropWhile_cons_of_neg (by decide)]
        rfl
      have hat' : c'.current? = some '@' := Cursor.current?_of_rest_eq hall
      have hagain := h.again (f := f)
        (by rw [Cursor.rest_past hall, h.toPiece.dropWhile hne]) halike
        fun _ => ⟨hcontinues, hf.past ['@']⟩
      rw [Cursor.past_past] at hagain
      refine readMarked_eq_ok_iff.2 ?_
      rw [readMark_of_mark hat']
      exact ⟨hagain, rfl⟩
  · rw [readMark_of_missing hat] at h ⊢
    refine ⟨core, hne, h.toPiece, h.rest_eq, h.last, h.solid, h.quiet, ?_⟩
    intro c' rest' f hc' halike hfollow
    have hall : c'.rest = core ++ rest' := by rw [hc', h.toPiece.dropWhile hne]
    have hat' : c'.current? ≠ some '@' := by
      have hrest := h.rest_eq
      rw [Cursor.current?, hrest] at hat
      rw [Cursor.current?, hall]
      cases core with
      | nil => exact absurd rfl hne
      | cons d core => exact hat
    refine readMarked_eq_ok_iff.2 ?_
    rw [readMark_of_missing hat']
    exact ⟨h.again (f := f) hc' halike hfollow, rfl⟩

/-- Headings are read part by part.  One of the tag and the name list has to be there. -/
theorem readHeading_eq_ok_iff {heading : Heading} :
    readHeading c = .ok (heading, d) ↔
      readMarked (readBoth readFront readAttributes) c =
          .ok ((heading.isHelper, (heading.tag, heading.names), heading.attributes), d) ∧
        (heading.tag.isSome = true ∨ heading.names.isSome = true) := by
  obtain ⟨isHelper, tag, names, attributes⟩ := heading
  unfold readHeading readMarked readBoth
  simp only [readFront_eq, bind, Except.bind]
  cases readAttributes (readNames (readTag (readMark c).2).2).2 with
  | error fault => split <;> simp [Except.map]
  | ok result =>
      simp only [pure, Except.pure, Except.map]
      split
      · rename_i hnone
        simp only [Bool.and_eq_true, Option.isNone_iff_eq_none] at hnone
        simp only [hnone.1, hnone.2, Except.ok.injEq, Prod.mk.injEq, reduceCtorEq, false_iff]
        rintro ⟨⟨⟨-, ⟨rfl, rfl⟩, -⟩, -⟩, hsome | hsome⟩ <;> cases hsome
      · rename_i hsome
        rw [Bool.and_eq_true, Option.isNone_iff_eq_none, Option.isNone_iff_eq_none] at hsome
        simp only [Except.ok.injEq, Prod.mk.injEq, Heading.mk.injEq]
        constructor
        · rintro ⟨⟨rfl, rfl, rfl, rfl⟩, rfl⟩
          refine ⟨⟨⟨rfl, ⟨rfl, rfl⟩, rfl⟩, rfl⟩, ?_⟩
          rw [Option.isSome_iff_ne_none, Option.isSome_iff_ne_none]
          exact Decidable.not_and_iff_not_or_not.1 hsome
        · rintro ⟨⟨⟨rfl, ⟨rfl, rfl⟩, rfl⟩, rfl⟩, -⟩
          exact ⟨⟨rfl, rfl, rfl, rfl⟩, rfl⟩

/-- A heading that is read is read again. -/
theorem readHeading_again {heading : Heading} (h : readHeading c = .ok (heading, d)) :
    ∃ core rest, core ≠ [] ∧ Rereads readHeading Heading.moved c heading core rest d := by
  obtain ⟨hread, hknown⟩ := readHeading_eq_ok_iff.1 h
  obtain ⟨hparts, hmark⟩ := readMarked_eq_ok_iff.1 hread
  obtain ⟨⟨front, next⟩, hfront, hparts⟩ := bind_eq_ok_iff.1 hparts
  obtain ⟨⟨attributes, last⟩, hattributes, hparts⟩ := bind_eq_ok_iff.1 hparts
  cases hparts
  obtain ⟨core, rest, hne, hfirst⟩ := readFront_again hfront hknown
  obtain ⟨core', rest', hsecond⟩ := readAttributes_again hfirst.gapless_behind hattributes
  have hgap : Gapless (readMark c).2.rest := by
    rw [hfirst.rest_eq, ← hfirst.toPiece.dropWhile hne]
    exact gapless_dropWhile _
  obtain ⟨inner, behind, hinner, hboth⟩ := Rereads.both hgap hfirst hsecond
  obtain ⟨all, hall, hmarked⟩ := hboth.marked (hinner (.inl hne))
  rw [hmark] at hmarked
  refine ⟨all, behind, hall, hmarked.toPiece, hmarked.rest_eq, hmarked.last, hmarked.solid,
    hmarked.quiet, fun hc' halike hfollow => ?_⟩
  exact readHeading_eq_ok_iff.2 ⟨hmarked.again hc' halike hfollow, hknown⟩

end Headings

end BemMarkup.Document

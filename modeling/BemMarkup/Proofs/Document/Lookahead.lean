import Mathlib.Data.List.DropRight
import BemMarkup.Proofs.Document.Headings
import BemMarkup.Proofs.Document.Ranges

/-!
# What readers see of the text behind them

A reader decides where to stop by looking at what comes next.  It looks at very little: a name
at one character, a heading at the first characters behind a gap, a line comment at the end of
its line.  This module says how much, by relating two texts that a reader cannot tell apart when
one of them comes behind it in place of the other.

`Continues` relates such texts behind an item.  In parentheses less can come, and `FillerEnds`
and `EntryEnds` relate the texts behind filler and behind an entry.  All of them hold for two
texts that start alike, which makes them pass from what is behind an item to what is behind the
one before it.

## Main definitions

* `Continues`: two texts are alike for all items that end before them.
* `FillerEnds`, `EntryEnds`: two texts are alike for filler and for entries.

## Main results

* `Continues.append`: texts that go on alike are alike with the same text before them.
* `isValid_of_readQuoted`, `isValid_of_readComment`: what is read can be written down.
-/

namespace BemMarkup.Document

open Text

/-! ## Tokens that are read -/

section Tokens

variable {c d : Cursor}

/-- The text between two cursors is determined by them. -/
theorem Cursor.Consumes.text_unique {s t : List Char} (h : c.Consumes s d) (h' : c.Consumes t d) :
    s = t :=
  h.upTo_eq.symm.trans h'.upTo_eq

theorem Cursor.Consumes.eq_past {s : List Char} (h : c.Consumes s d) : d = c.past s := by
  obtain ⟨offset, rest⟩ := d
  have hrest : rest = (c.past s).rest := (Cursor.rest_past h.rest_eq).symm
  have hoffset : offset = (c.past s).offset := h.offset_eq
  rw [hrest, hoffset]

theorem not_infix_of_beforeClosingMark? {cs body : List Char}
    (h : beforeClosingMark? cs = some body) : ¬ ['*', '/'] <:+: body := by
  induction cs using beforeClosingMark?.induct generalizing body with
  | case1 => cases h
  | case2 rest =>
      rw [beforeClosingMark?] at h
      cases h
      simp
  | case3 c cs hne ih =>
      rw [beforeClosingMark?] at h
      · obtain ⟨inner, hinner, rfl⟩ := Option.map_eq_some_iff.1 h
        obtain ⟨rest, rfl⟩ := beforeClosingMark?_append hinner
        rw [List.infix_cons_iff, not_or]
        refine ⟨fun hprefix => ?_, ih hinner⟩
        obtain ⟨rfl, hslash⟩ := List.cons_prefix_cons.1 hprefix
        obtain ⟨tail, rfl⟩ := hslash
        exact hne _ rfl rfl
      · exact hne

/-- A comment that is read does not contain its end, and a line comment goes up to the end of
its line. -/
theorem isValid_of_readComment {token : CommentToken} (h : readComment c = .ok (token, d)) :
    token.IsValid ∧ (token.isMultiline = false → d.rest = [] ∨ StartsWithBreak d.rest) := by
  have hconsumes := readComment_consumes h
  unfold readComment at h
  split at h
  · rename_i cs hrest
    cases h
    refine ⟨?_, fun _ => ?_⟩
    · have hbreak : ∀ c ∈ cs.takeWhile fun d => !isBreak d, c ≠ '\r' ∧ c ≠ '\n' := by
        intro c hc
        have hplain := List.all_eq_true.1 List.all_takeWhile c hc
        simpa [isBreak] using hplain
      simpa [CommentToken.IsValid] using hbreak
    · have hall : c.rest = '/' :: '/' :: cs.takeWhile (fun d => !isBreak d) ++
          cs.dropWhile fun d => !isBreak d := by
        rw [hrest, List.cons_append, List.cons_append, List.takeWhile_append_dropWhile]
      have hlast := Cursor.rest_past hall
      rw [CommentToken.lexeme, if_neg Bool.false_ne_true, hlast]
      cases hbehind : cs.dropWhile (fun d => !isBreak d) with
      | nil => exact .inl rfl
      | cons d tail =>
          have hd : isBreak d = true := by
            simpa [hbehind] using List.head?_dropWhile_not (fun d => !isBreak d) cs
          refine .inr ⟨d, tail, rfl, ?_⟩
          simpa only [isBreak, Bool.or_eq_true, beq_iff_eq] using hd
  · split at h
    · rename_i body hbody
      cases h
      exact ⟨by simpa [CommentToken.IsValid] using not_infix_of_beforeClosingMark? hbody, by simp⟩
    · cases h
  · cases h
  · cases h

/-- A slash that starts no comment is a mistake where a comment is read. -/
theorem readComment_lone {rest : List Char} (hrest : c.rest = '/' :: rest)
    (h : startsComment c.rest = false) :
    readComment c = .error ⟨c.offset + 1, .expected "/" (found rest)⟩ := by
  unfold readComment
  split
  · rename_i htwo
    rw [htwo] at h
    cases h
  · rename_i hstar
    rw [hstar] at h
    cases h
  · rename_i others hne hne' hcons
    obtain ⟨-, rfl⟩ := List.cons.inj (hrest.symm.trans hcons)
    rfl
  · rename_i hother
    exact absurd hrest (hother rest)

/-- A quoted text that is read can be written down. -/
theorem isValid_of_readQuoted {quote : Char} {cs : List Char} {token : QuotedToken}
    (hquote : isQuote quote = true) (hrest : c.rest = quote :: cs)
    (h : readQuoted quote c = .ok (token, d)) : token.IsValid ∧ token.quote = quote := by
  have hconsumes := readQuoted_consumes hrest h
  unfold readQuoted at h
  simp only [hrest, List.drop_one, List.tail_cons] at h
  split at h
  · cases h
    refine ⟨⟨by simpa [isQuote, or_assoc] using hquote, ?_⟩, rfl⟩
    have htext := hconsumes.rest_eq
    rw [hrest, QuotedToken.lexeme, List.cons_append] at htext
    exact isBody_quotedBody (by simpa using (List.cons.inj htext).2)
  · cases h

/-- A super call that is read can be written down. -/
theorem isValid_of_read? {cs : List Char} {token : SuperToken}
    (h : SuperToken.read? cs = some token) : token.IsValid := by
  unfold SuperToken.read? at h
  split at h
  · cases h
    intro name hname
    cases hname
  · dsimp only at h
    split at h
    · rename_i hne
      cases h
      intro name hname
      cases hname
      simp only [Bool.and_eq_true, Bool.not_eq_true', List.isEmpty_eq_false_iff] at hne
      exact NameClass.lexeme_isName hne.1
    · cases h
  · cases h

end Tokens

/-! ## Gaps -/

section Gaps

variable {x y : List Char}

theorem blank_or_head (cs : List Char) :
    Blank cs ∨ ∃ d tail, cs.dropWhile isGap = d :: tail ∧ isGap d = false := by
  cases h : cs.dropWhile isGap with
  | nil => exact .inl (List.dropWhile_eq_nil_iff.1 h)
  | cons d tail =>
      have hd : isGap d = false := by simpa [h] using List.head?_dropWhile_not isGap cs
      exact .inr ⟨d, tail, rfl, hd⟩

theorem gapless_dropWhile (cs : List Char) : Gapless (cs.dropWhile isGap) := by
  rcases blank_or_head cs with hblank | ⟨d, tail, hdrop, hd⟩
  · rw [List.dropWhile_eq_nil_iff.2 hblank]
    exact .nil
  · rw [hdrop]
    exact .cons hd tail

/-- Behind a text that is not blank, nothing more belongs to its first gap. -/
theorem dropWhile_append_of_head {d : Char} {tail : List Char}
    (h : x.dropWhile isGap = d :: tail) (y : List Char) :
    (x ++ y).dropWhile isGap = d :: (tail ++ y) := by
  simp [List.dropWhile_append, h]

theorem takeWhile_append_of_head {d : Char} {tail : List Char}
    (h : x.dropWhile isGap = d :: tail) (y : List Char) :
    (x ++ y).takeWhile isGap = x.takeWhile isGap := by
  have hd : isGap d = false := by simpa [h] using List.head?_dropWhile_not isGap x
  have hx : x.takeWhile isGap ++ d :: (tail ++ y) = x ++ y := by
    rw [← List.cons_append, ← h, ← List.append_assoc, List.takeWhile_append_dropWhile]
  rw [← hx, List.takeWhile_append_of_pos (blank_takeWhile x),
    List.takeWhile_cons_of_neg (by simp [hd]), List.append_nil]

theorem takeWhile_append_of_blank (h : Blank x) (y : List Char) :
    (x ++ y).takeWhile isGap = x ++ y.takeWhile isGap :=
  List.takeWhile_append_of_pos (by simpa [Blank] using h)

theorem takeWhile_of_gapless (h : Gapless x) : x.takeWhile isGap = [] := by
  cases x with
  | nil => rfl
  | cons d x => exact List.takeWhile_cons_of_neg (by simp [h d rfl])

theorem trimEnd_trimEnd (cs : List Char) : trimEnd (trimEnd cs) = trimEnd cs := by
  rw [trimEnd, trimEnd, List.reverse_reverse, List.dropWhile_idempotent]

/-- What is trimmed behind a text depends on what comes there only as far as that is not
trimmed. -/
theorem trimEnd_append_congr {y y' : List Char} (h : trimEnd y = trimEnd y') (x : List Char) :
    trimEnd (x ++ y) = trimEnd (x ++ y') := by
  have hreverse : y.reverse.dropWhile isWhite = y'.reverse.dropWhile isWhite :=
    List.reverse_inj.1 h
  simp only [trimEnd, List.reverse_append, List.dropWhile_append, hreverse]

end Gaps

/-! ## In parentheses -/

/-- Two texts that filler which ends before them cannot tell apart. -/
structure FillerEnds (rest rest' : List Char) : Prop where
  line : rest = [] → rest' = [] ∨ StartsWithBreak rest'
  slash : (rest'.dropWhile isGap).head? ≠ some '/'

/-- Two texts that an entry which ends before them cannot tell apart. -/
structure EntryEnds (rest rest' : List Char) : Prop extends FillerEnds rest rest' where
  stops : Stops rest'
  equals : (rest'.dropWhile isGap).head? ≠ some '='
  close : ∀ d, d = ',' ∨ d = ')' → rest.head? = some d → rest'.head? = some d

section Parentheses

variable {d : Char} {rest : List Char}

theorem FillerEnds.of_head (hgap : isGap d = false) (hslash : d ≠ '/') (tail tail' : List Char) :
    FillerEnds (d :: tail) (d :: tail') := by
  refine ⟨by simp, ?_⟩
  rw [dropWhile_of_gapless (.cons hgap _)]
  simpa using hslash

theorem FillerEnds.of_break (hgap : isGap d = false) (hslash : d ≠ '/') (tail : List Char) :
    FillerEnds rest ('\n' :: d :: tail) := by
  refine ⟨fun _ => .inr ⟨'\n', d :: tail, rfl, .inr rfl⟩, ?_⟩
  rw [List.dropWhile_cons_of_pos (by decide), dropWhile_of_gapless (.cons hgap _)]
  simpa using hslash

theorem EntryEnds.of_head (h : d = ',' ∨ d = ')') (tail tail' : List Char) :
    EntryEnds (d :: tail) (d :: tail') := by
  have hgap : isGap d = false := by rcases h with rfl | rfl <;> decide
  have hslash : d ≠ '/' := by rcases h with rfl | rfl <;> decide
  refine ⟨.of_head hgap hslash tail tail', .cons (by rcases h with rfl | rfl <;> decide) _, ?_,
    fun e _ he => he⟩
  rw [dropWhile_of_gapless (.cons hgap _)]
  rcases h with rfl | rfl <;> simp

/-- A line break and a closing parenthesis end an entry that is not ended where it should be. -/
theorem EntryEnds.of_break (h : ∀ d, d = ',' ∨ d = ')' → rest.head? ≠ some d)
    (tail : List Char) : EntryEnds rest ('\n' :: ')' :: tail) :=
  ⟨.of_break (by decide) (by decide) tail, .cons (by decide) _, by
    rw [List.dropWhile_cons_of_pos (by decide), dropWhile_of_gapless (.cons (by decide) _)]
    simp, fun d hd hrest => absurd hrest (h d hd)⟩

end Parentheses

/-! ## Behind items -/

/-- A text that starts with nothing that continues a heading before it: with a comment, or with
a character that no part of a heading starts with. -/
def Closed (rest : List Char) : Prop :=
  startsComment rest = true ∨
    Heads (fun d => isStop d = true ∧ d ∉ ['/', ',', '(', '\x7b']) rest

/-- Two texts that start alike or, the second one, with nothing that continues a heading. -/
def StartsAlike (rest rest' : List Char) : Prop :=
  Closed rest' ∨ rest'.head? = rest.head? ∧ startsComment rest' = startsComment rest ∧
    Heads (fun d => isStop d = true ∨ d.isAlpha = true) rest'

/-- Two texts that an item which ends before them cannot tell apart. -/
structure Continues (rest rest' : List Char) : Prop where
  /-- Names end before both. -/
  stops : Stops rest' ∨ ∃ d, d.isAlpha = true ∧ rest.head? = some d ∧ rest'.head? = some d
  /-- A slash before them starts no comment. -/
  slash : startsComment ('/' :: rest) = false → startsComment ('/' :: rest') = false
  /-- Line comments end before both. -/
  line : rest = [] ∨ StartsWithBreak rest → rest' = [] ∨ StartsWithBreak rest'
  /-- Of the gap at their start, the same is kept. -/
  gap : trimEnd (rest'.takeWhile isGap) = trimEnd (rest.takeWhile isGap)
  /-- Behind the gap they start alike. -/
  behind : StartsAlike (rest.dropWhile isGap) (rest'.dropWhile isGap)

section Items

variable {rest rest' : List Char}

theorem startsComment_congr (c d : Char) (x y : List Char) :
    startsComment (c :: d :: x) = startsComment (c :: d :: y) := by
  unfold startsComment
  split <;> split <;> simp_all

theorem head_of_startsComment (h : startsComment rest = true) : ∃ tail, rest = '/' :: tail := by
  unfold startsComment at h
  split at h
  · exact ⟨_, rfl⟩
  · exact ⟨_, rfl⟩
  · cases h

theorem Closed.nil : Closed [] := .inr .nil

theorem Closed.stops (h : Closed rest) : Stops rest := by
  rcases h with h | h
  · obtain ⟨tail, rfl⟩ := head_of_startsComment h
    exact .cons (by decide) tail
  · exact h.mono fun d hd => hd.1

/-- Where a heading ends, it goes on with none of its parts. -/
theorem Closed.head_ne (h : Closed rest) {d : Char} (hd : d ∈ [',', '(', '\x7b']) :
    rest.head? ≠ some d := by
  rcases h with h | h
  · obtain ⟨tail, rfl⟩ := head_of_startsComment h
    rintro heq
    cases heq
    exact absurd hd (by decide)
  · intro heq
    exact (h d heq).2 (List.mem_cons_of_mem _ hd)

/-- Two texts that are alike behind a gap do not differ in whether a heading goes on. -/
theorem StartsAlike.head_ne (h : StartsAlike rest rest') {d : Char}
    (hd : d ∈ [',', '(', '\x7b']) (hrest : rest.head? ≠ some d) : rest'.head? ≠ some d := by
  rcases h with h | ⟨hhead, -, -⟩
  · exact h.head_ne hd
  · rwa [hhead]

/-- Where no gap stands, a line break and the end of the content may come. -/
theorem Continues.of_break (hgap : Gapless rest) (hgap' : Gapless rest') (h : Closed rest') :
    Continues rest ('\n' :: rest') := by
  refine ⟨.inl (.cons (by decide) _), fun _ => rfl, fun _ => .inr ⟨'\n', rest', rfl, .inr rfl⟩,
    ?_, .inl ?_⟩
  · rw [List.takeWhile_cons_of_pos (by decide), takeWhile_of_gapless hgap,
      takeWhile_of_gapless hgap']
    rfl
  · rw [List.dropWhile_cons_of_pos (by decide), dropWhile_of_gapless hgap']
    exact h

/-- What comes behind an item may be cut off, and of the gap behind it what would be
trimmed. -/
theorem Continues.of_trimEnd (rest : List Char) :
    Continues rest (trimEnd (rest.takeWhile isGap)) := by
  have hkept := trimEnd_prefix (rest.takeWhile isGap)
  have hblank : Blank (trimEnd (rest.takeWhile isGap)) :=
    fun c hc => blank_takeWhile rest c (hkept.subset hc)
  have hhead : ∀ c tail, trimEnd (rest.takeWhile isGap) = c :: tail →
      isGap c = true ∧ ∃ tail', rest = c :: tail' := by
    intro c tail h
    refine ⟨hblank c (by simp [h]), ?_⟩
    obtain ⟨tail', htail⟩ := hkept.trans (List.takeWhile_prefix isGap)
    exact ⟨tail ++ tail', by rw [← htail, h, List.cons_append]⟩
  have hdrop : (trimEnd (rest.takeWhile isGap)).dropWhile isGap = [] :=
    List.dropWhile_eq_nil_iff.2 hblank
  constructor
  · exact .inl fun c hc => isStop_of_isGap (hblank c (List.mem_of_mem_head? hc))
  · intro _
    refine startsComment_eq_false fun c hc => ?_
    have hgap := hblank c (List.mem_of_mem_head? hc)
    constructor <;> rintro rfl <;> exact absurd hgap (by decide)
  · intro h
    cases hcut : trimEnd (rest.takeWhile isGap) with
    | nil => exact .inl rfl
    | cons c tail =>
        obtain ⟨-, tail', rfl⟩ := hhead c tail hcut
        rcases h with hnil | ⟨d, others, hcons, hbreak⟩
        · cases hnil
        · exact .inr ⟨c, tail, rfl, (List.cons.inj hcons).1 ▸ hbreak⟩
  · rw [List.takeWhile_eq_self_iff.2 hblank]
    exact trimEnd_trimEnd _
  · rw [hdrop]
    exact .inl .nil

/-- For texts with the same first character, it matters where the gap ends. -/
theorem Continues.of_head {c : Char} (hc : isStop c = true ∨ c.isAlpha = true)
    {tail tail' : List Char}
    (hgap : trimEnd ((c :: tail').takeWhile isGap) = trimEnd ((c :: tail).takeWhile isGap))
    (hbehind : StartsAlike ((c :: tail).dropWhile isGap) ((c :: tail').dropWhile isGap)) :
    Continues (c :: tail) (c :: tail') := by
  refine ⟨hc.imp (fun hc => .cons hc _) fun hc => ⟨c, hc, rfl, rfl⟩, fun hcomment => ?_, ?_, hgap,
    hbehind⟩
  · rw [← hcomment]
    exact startsComment_congr '/' c _ _
  · rintro (hnil | ⟨e, others, hcons, hbreak⟩)
    · cases hnil
    · exact .inr ⟨c, tail', rfl, (List.cons.inj hcons).1 ▸ hbreak⟩

/-- What comes behind the first token of a text is not looked at, except behind a slash. -/
theorem Continues.of_token {front tail : List Char} {d : Char}
    (hdrop : front.dropWhile isGap = d :: tail) (hd : isStop d = true ∨ d.isAlpha = true)
    (hslash : d :: tail = ['/'] →
      startsComment ('/' :: rest) = false ∧ startsComment ('/' :: rest') = false) :
    Continues (front ++ rest) (front ++ rest') := by
  cases front with
  | nil => cases hdrop
  | cons c front =>
      have hc : isStop c = true ∨ c.isAlpha = true := by
        cases hgap : isGap c with
        | true => exact .inl (isStop_of_isGap hgap)
        | false =>
            rw [List.dropWhile_cons_of_neg (by simp [hgap])] at hdrop
            rwa [(List.cons.inj hdrop).1]
      rw [List.cons_append, List.cons_append]
      refine .of_head hc ?_ ?_
      · rw [← List.cons_append, ← List.cons_append, takeWhile_append_of_head hdrop,
          takeWhile_append_of_head hdrop]
      · rw [← List.cons_append, ← List.cons_append, dropWhile_append_of_head hdrop,
          dropWhile_append_of_head hdrop]
        refine .inr ⟨rfl, ?_, .cons hd _⟩
        cases tail with
        | cons e tail => exact startsComment_congr d e _ _
        | nil =>
            by_cases hfirst : d = '/'
            · subst hfirst
              exact (hslash rfl).2.trans (hslash rfl).1.symm
            · exact (startsComment_eq_false_of_ne _ hfirst).trans
                (startsComment_eq_false_of_ne _ hfirst).symm

/-- Behind a mark of its own, such as a brace, nothing is looked at. -/
theorem Continues.of_mark {gap : List Char} {mark : Char} (hgap : Blank gap)
    (hmark : isGap mark = false) (hstop : isStop mark = true) (hslash : mark ≠ '/')
    (rest rest' : List Char) : Continues (gap ++ mark :: rest) (gap ++ mark :: rest') := by
  have hdrop : (gap ++ [mark]).dropWhile isGap = [mark] := by
    rw [dropWhile_of_blank hgap, dropWhile_of_gapless (.cons hmark _)]
  have h := @Continues.of_token rest rest' _ _ _ hdrop (.inl hstop)
    fun hlone => absurd (List.cons.inj hlone).1 hslash
  simpa using h

/-- Texts that go on alike are alike with the same text before them. -/
theorem Continues.append (h : Continues rest rest') {front : List Char}
    (hhead : Heads (fun d => isStop d = true ∨ d.isAlpha = true) (front.dropWhile isGap))
    (hslash : front.dropWhile isGap = ['/'] → startsComment ('/' :: rest) = false) :
    Continues (front ++ rest) (front ++ rest') := by
  rcases blank_or_head front with hblank | ⟨d, tail, hdrop, -⟩
  · cases front with
    | nil => exact h
    | cons c front =>
        rw [List.cons_append, List.cons_append]
        refine .of_head (.inl (isStop_of_isGap (hblank c List.mem_cons_self))) ?_ ?_
        · rw [← List.cons_append, ← List.cons_append, takeWhile_append_of_blank hblank,
            takeWhile_append_of_blank hblank]
          exact trimEnd_append_congr h.gap _
        · rw [← List.cons_append, ← List.cons_append, dropWhile_of_blank hblank,
            dropWhile_of_blank hblank]
          exact h.behind
  · rw [hdrop] at hhead hslash
    exact .of_token hdrop (hhead d rfl) fun hlone => ⟨hslash hlone, h.slash (hslash hlone)⟩

/-- A name does not go on where what it is read from is continued. -/
theorem Continues.stops_of_name (h : Continues rest rest')
    (hname : Heads (fun d => isNameChar d = false) rest) : Stops rest' := by
  rcases h.stops with hstops | ⟨d, hd, hrest, -⟩
  · exact hstops
  · have hchar : isNameChar d = true := isNameChar_of_isLetterOrUnderscore (by
      simp [isLetterOrUnderscore, hd])
    have hnot : isNameChar d = false := hname d hrest
    rw [hnot] at hchar
    cases hchar

end Items

end BemMarkup.Document

import BemMarkup.Proofs.Document.Mending
import BemMarkup.Proofs.Document.Returns

/-!
# Reading with and without carriage returns

A source and the same source with carriage returns are read side by side.  `SamePlace` ties a
cursor in the one to the cursor in the other with the same text before it, up to the returns.  Two
readers agree if they start at the same place and then either end at the same place, with values
that are related, or fail at the same place in the same way.

Agreement passes through chains of readers, so each reader is dealt with by following its own
definition, and only tokens need to know about characters.  What an error has found in place of
what it wanted may differ, since that may be a line break.

## Main definitions

* `SamePlace`: two cursors with the same text before them.
* `Agrees`: two results that are related, or two mistakes at the same place.

## Main results

* `Agrees.bind`: agreement passes through chains.
* `agrees_skipFiller`, `agrees_readEntries`, `agrees_readHeading`: filler, the entries of
  attribute lists, and headings.
-/

namespace BemMarkup.Document

open Text

/-! ## Places -/

/-- Two cursors, the second one in the source with returns, that the same text stands before. -/
def SamePlace (source : List Char) (c c' : Cursor) : Prop :=
  ∃ front, (Cursor.start source).Consumes front c ∧
    (Cursor.start (addReturns source)).Consumes (addReturns front) c'

/-- A kind of error without the text that is found in place of the one that is wanted. -/
def ParseErrorKind.withoutFound : ParseErrorKind → ParseErrorKind
  | .expected wanted _ => .expected wanted ""
  | kind => kind

/-- Two mistakes of a kind, the second one in the source with returns, that the same text stands
before. -/
structure SameFault (source : List Char) (fault fault' : Fault) : Prop where
  place : ∃ front, front <+: source ∧ fault.offset = byteLength front ∧
    fault'.offset = byteLength (addReturns front)
  kind : fault'.kind.withoutFound = fault.kind.withoutFound

section Places

variable {source text : List Char} {c c' : Cursor} {d : Char}

theorem SamePlace.start (source : List Char) :
    SamePlace source (.start source) (.start (addReturns source)) :=
  ⟨[], .refl _, .refl _⟩

/-- At the same place, what is left of the sources is the same up to the returns. -/
theorem SamePlace.rest_eq (h : SamePlace source c c') : c'.rest = addReturns c.rest := by
  obtain ⟨front, hc, hc'⟩ := h
  have hsource := congrArg addReturns hc.rest_eq
  rw [addReturns_append] at hsource
  exact List.append_cancel_left (hc'.rest_eq.symm.trans hsource)

theorem SamePlace.past (h : SamePlace source c c') (htext : text <+: c.rest) :
    SamePlace source (c.past text) (c'.past (addReturns text)) := by
  have hrest := h.rest_eq
  obtain ⟨rest, htext⟩ := htext
  rw [← htext, addReturns_append] at hrest
  obtain ⟨front, hc, hc'⟩ := h
  refine ⟨front ++ text, hc.trans (Cursor.past_consumes ⟨rest, htext⟩), ?_⟩
  rw [addReturns_append]
  exact hc'.trans (Cursor.past_consumes_of_rest _ hrest)

/-- A text in one line is the same in both sources. -/
theorem SamePlace.past_line (h : SamePlace source c c') (htext : text <+: c.rest)
    (hfeed : '\n' ∉ text) : SamePlace source (c.past text) (c'.past text) := by
  have hpast := h.past htext
  rwa [addReturns_of_not_mem hfeed] at hpast

theorem SamePlace.skipGaps (h : SamePlace source c c') :
    SamePlace source c.skipGaps c'.skipGaps := by
  rw [Cursor.skipGaps, Cursor.skipGaps, h.rest_eq, takeWhile_addReturns rfl]
  exact h.past (List.takeWhile_prefix _)

theorem SamePlace.finish (h : SamePlace source c c') : SamePlace source c.finish c'.finish := by
  rw [Cursor.finish, Cursor.finish, h.rest_eq]
  exact h.past (List.prefix_refl _)

/-- At the same place stands the same character, unless it is a line break. -/
theorem SamePlace.current? (h : SamePlace source c c') (hd : isBreak d = false) :
    c'.current? = some d ↔ c.current? = some d := by
  rw [Cursor.current?, h.rest_eq]
  exact head?_addReturns hd

theorem SamePlace.past_current (h : SamePlace source c c') (hd : isBreak d = false)
    (hc : c.current? = some d) : SamePlace source (c.past [d]) (c'.past [d]) := by
  obtain ⟨rest, hrest⟩ := Cursor.rest_eq_of_current? hc
  refine h.past_line ⟨rest, hrest.symm⟩ ?_
  rintro (_ | ⟨_, ⟨⟩⟩)
  cases hd

/-- At the same place, mistakes of a kind are the same. -/
theorem SamePlace.fault (h : SamePlace source c c') {kind kind' : ParseErrorKind}
    (hkind : kind'.withoutFound = kind.withoutFound) :
    SameFault source ⟨c.offset, kind⟩ ⟨c'.offset, kind'⟩ := by
  obtain ⟨front, hc, hc'⟩ := h
  refine ⟨⟨front, ⟨c.rest, hc.rest_eq.symm⟩, ?_, ?_⟩, hkind⟩
  · rw [hc.offset_eq, Cursor.start, Nat.zero_add]
  · rw [hc'.offset_eq, Cursor.start, Nat.zero_add]

/-- What is left of a source has no escape that the source does not have. -/
theorem SamePlace.not_escape (h : SamePlace source c c') (hsource : ¬ ['\\', '\n'] <:+: source) :
    ¬ ['\\', '\n'] <:+: c.rest := by
  obtain ⟨front, hc, -⟩ := h
  have hrest : source = front ++ c.rest := hc.rest_eq
  rw [hrest] at hsource
  exact fun hinside => hsource (hinside.trans (List.suffix_append _ _).isInfix)

end Places

/-! ## Agreement -/

/-- Two results, the second one of the source with returns: values that are related, or the same
mistake. -/
inductive Agrees {α : Type} (source : List Char) (r : α → α → Prop) :
    Except Fault α → Except Fault α → Prop
  | ok {a a' : α} (value : r a a') : Agrees source r (.ok a) (.ok a')
  | error {fault fault' : Fault} (same : SameFault source fault fault') :
      Agrees source r (.error fault) (.error fault')

/-- Values that are related, each with a cursor, and both cursors are at the same place. -/
def At {α : Type} (source : List Char) (r : α → α → Prop) (a a' : α × Cursor) : Prop :=
  r a.1 a'.1 ∧ SamePlace source a.2 a'.2

section Agreement

variable {α β : Type} {source : List Char} {r : α → α → Prop} {s : β → β → Prop}
  {x x' : Except Fault α}

/-- Chains of readers agree if they agree step by step. -/
theorem Agrees.bind {f f' : α → Except Fault β} (h : Agrees source r x x')
    (hf : ∀ a a', x = .ok a → r a a' → Agrees source s (f a) (f' a')) :
    Agrees source s (x >>= f) (x' >>= f') := by
  cases h with
  | ok value => exact hf _ _ rfl value
  | error same => exact .error same

theorem Agrees.map {f f' : α → β} (h : Agrees source r x x')
    (hf : ∀ a a', r a a' → s (f a) (f' a')) : Agrees source s (x.map f) (x'.map f') := by
  cases h with
  | ok value => exact .ok (hf _ _ value)
  | error same => exact .error same

end Agreement

/-! ## Tokens -/

/-- A comment with a carriage return before every line feed in it. -/
def CommentToken.returned (token : CommentToken) : CommentToken :=
  if token.isMultiline then ⟨addReturns token.body, true⟩ else token

section Tokens

variable {source cs : List Char} {c c' : Cursor}

theorem startsComment_cases (h : startsComment cs = true) :
    (∃ rest, cs = '/' :: '/' :: rest) ∨ ∃ rest, cs = '/' :: '*' :: rest := by
  unfold startsComment at h
  split at h
  · exact .inl ⟨_, rfl⟩
  · exact .inr ⟨_, rfl⟩
  · cases h

theorem readComment_line (h : c.rest = '/' :: '/' :: cs) :
    readComment c = .ok (⟨cs.takeWhile fun d => !isBreak d, false⟩,
      c.past ('/' :: '/' :: cs.takeWhile fun d => !isBreak d)) := by
  unfold readComment
  rw [h]
  rfl

theorem readComment_block (h : c.rest = '/' :: '*' :: cs) :
    readComment c =
      match beforeClosingMark? cs with
      | some body => .ok (⟨body, true⟩, c.past ('/' :: '*' :: (body ++ ['*', '/'])))
      | none => .error ⟨c.finish.offset, .unterminatedComment⟩ := by
  unfold readComment
  rw [h]
  rfl

/-- Line comments are read alike: they end before a line break of either kind. -/
theorem agrees_readComment_line (h : SamePlace source c c') (hrest : c.rest = '/' :: '/' :: cs) :
    Agrees source (At source fun token token' => token' = token.returned)
      (readComment c) (readComment c') := by
  have hrest' : c'.rest = '/' :: '/' :: addReturns cs := by
    rw [h.rest_eq, hrest, addReturns_cons (by decide), addReturns_cons (by decide)]
  have hfeed : '\n' ∉ cs.takeWhile fun d => !isBreak d :=
    fun hmem => absurd (List.all_eq_true.1 List.all_takeWhile _ hmem) (by decide)
  rw [readComment_line hrest, readComment_line hrest', takeWhile_addReturns rfl,
    addReturns_of_not_mem hfeed]
  refine .ok ⟨rfl, h.past_line ?_ (by simpa using hfeed)⟩
  rw [hrest]
  simpa using List.takeWhile_prefix _

/-- Block comments are read alike, with a return before every line feed in them. -/
theorem agrees_readComment_block (h : SamePlace source c c') (hrest : c.rest = '/' :: '*' :: cs) :
    Agrees source (At source fun token token' => token' = token.returned)
      (readComment c) (readComment c') := by
  have hrest' : c'.rest = '/' :: '*' :: addReturns cs := by
    rw [h.rest_eq, hrest, addReturns_cons (by decide), addReturns_cons (by decide)]
  rw [readComment_block hrest, readComment_block hrest', beforeClosingMark?_addReturns]
  cases hbody : beforeClosingMark? cs with
  | none => exact .error (h.finish.fault rfl)
  | some body =>
      obtain ⟨rest, rfl⟩ := beforeClosingMark?_append hbody
      have hlexeme : addReturns ('/' :: '*' :: (body ++ ['*', '/'])) =
          '/' :: '*' :: (addReturns body ++ ['*', '/']) := by
        rw [addReturns_cons (by decide), addReturns_cons (by decide), addReturns_append]
        rfl
      have hstands : '/' :: '*' :: (body ++ ['*', '/']) <+: c.rest := ⟨rest, by simp [hrest]⟩
      have hpast := h.past hstands
      rw [hlexeme] at hpast
      exact .ok ⟨rfl, hpast⟩

/-- Comments are read alike. -/
theorem agrees_readComment (h : SamePlace source c c') (hslash : c.current? = some '/') :
    Agrees source (At source fun token token' => token' = token.returned)
      (readComment c) (readComment c') := by
  cases hstart : startsComment c.rest with
  | true =>
      rcases startsComment_cases hstart with ⟨cs, hrest⟩ | ⟨cs, hrest⟩
      · exact agrees_readComment_line h hrest
      · exact agrees_readComment_block h hrest
  | false =>
      obtain ⟨rest, hrest⟩ := Cursor.rest_eq_of_current? hslash
      have hrest' : c'.rest = '/' :: addReturns rest := by
        rw [h.rest_eq, hrest, addReturns_cons (by decide)]
      have hstart' : startsComment c'.rest = false := by
        rw [h.rest_eq, startsComment_addReturns, hstart]
      rw [readComment_lone hrest hstart, readComment_lone hrest' hstart']
      exact .error ((h.past_current rfl hslash).fault rfl)

/-- Filler is moved over alike. -/
theorem agrees_skipFiller (h : SamePlace source c c') :
    Agrees source (SamePlace source) (skipFiller c) (skipFiller c') := by
  induction c using skipFiller.induct generalizing c' with
  | case1 c hslash fault hread =>
      rw [skipFiller_of_comment hslash,
        skipFiller_of_comment ((h.skipGaps.current? rfl).2 hslash)]
      refine (agrees_readComment h.skipGaps hslash).bind fun read _ hread' _ => ?_
      rw [hread] at hread'
      cases hread'
  | case2 c hslash token next hread ih =>
      rw [skipFiller_of_comment hslash,
        skipFiller_of_comment ((h.skipGaps.current? rfl).2 hslash)]
      refine (agrees_readComment h.skipGaps hslash).bind fun read _ hread' hsame => ?_
      rw [hread] at hread'
      cases hread'
      exact ih hsame.2
  | case3 c hslash =>
      rw [skipFiller_of_no_comment hslash,
        skipFiller_of_no_comment (mt (h.skipGaps.current? rfl).1 hslash)]
      exact .ok h.skipGaps

theorem isBreak_of_isQuote {quote : Char} (h : isQuote quote = true) : isBreak quote = false := by
  simp only [isQuote, Bool.or_eq_true, beq_iff_eq, or_assoc] at h
  rcases h with rfl | rfl | rfl <;> rfl

/-- Quoted texts are read alike, with the same value. -/
theorem agrees_readQuoted (h : SamePlace source c c') (hsource : ¬ ['\\', '\n'] <:+: source)
    {quote : Char} (hquote : isQuote quote = true) (hrest : c.rest = quote :: cs) :
    Agrees source
      (At source fun token token' =>
        token'.isMultiline = token.isMultiline ∧ token'.value = token.value)
      (readQuoted quote c) (readQuoted quote c') := by
  have hplain := h.not_escape hsource
  rw [hrest] at hplain
  have hcs : ¬ ['\\', '\n'] <:+: cs := fun hinside => hplain (List.infix_cons hinside)
  have hbreak := isBreak_of_isQuote hquote
  have hne : quote ≠ '\n' := by
    rintro rfl
    cases hbreak
  have hrest' : c'.rest = quote :: addReturns cs := by
    rw [h.rest_eq, hrest, addReturns_cons hne]
  have hbody := quotedBody_addReturns hquote hcs
  have hfront : quote :: quotedBody quote cs <+: c.rest := by
    rw [hrest]
    simpa using quotedBody_prefix quote cs
  have hend := h.past hfront
  rw [addReturns_cons hne] at hend
  unfold readQuoted
  dsimp only
  rw [hrest, hrest', List.drop_one, List.drop_one, List.tail_cons, List.tail_cons, hbody]
  by_cases hclose : (c.past (quote :: quotedBody quote cs)).current? = some quote
  · rw [if_pos hclose, if_pos ((hend.current? hbreak).2 hclose)]
    have hlast := hend.past_current hbreak hclose
    rw [Cursor.past_past, Cursor.past_past] at hlast
    exact .ok ⟨⟨rfl, value_addReturns hcs⟩, hlast⟩
  · rw [if_neg hclose, if_neg (mt (hend.current? hbreak).1 hclose)]
    exact .error (hend.fault rfl)

/-- Unquoted values are read alike: they end before a line break of either kind. -/
theorem agrees_readBare (h : SamePlace source c c') :
    Agrees source (At source Eq) (readBare c) (readBare c') := by
  have hfeed : '\n' ∉ c.rest.takeWhile isBareChar :=
    fun hmem => absurd (List.all_eq_true.1 List.all_takeWhile _ hmem) (by decide)
  have hnext := h.past_line (List.takeWhile_prefix isBareChar) hfeed
  have hempty : (c'.past (c.rest.takeWhile isBareChar)).rest.isEmpty =
      (c.past (c.rest.takeWhile isBareChar)).rest.isEmpty := by
    rw [Bool.eq_iff_iff, List.isEmpty_iff, List.isEmpty_iff, hnext.rest_eq, addReturns_eq_nil]
  unfold readBare
  dsimp only
  rw [h.rest_eq, takeWhile_addReturns rfl, addReturns_of_not_mem hfeed, hempty]
  split
  · exact .error (hnext.fault rfl)
  · exact .ok ⟨rfl, hnext⟩

theorem readValue_of_quote {quote : Char} (hrest : c.rest = quote :: cs)
    (hquote : isQuote quote = true) :
    readValue c = (readQuoted quote c).map fun (token, next) => (token.value, next) := by
  unfold readValue
  rw [hrest]
  exact if_pos hquote

/-- Values are read alike. -/
theorem agrees_readValue (h : SamePlace source c c') (hsource : ¬ ['\\', '\n'] <:+: source) :
    Agrees source (At source Eq) (readValue c) (readValue c') := by
  by_cases hquoted : ∃ quote, c.current? = some quote ∧ isQuote quote = true
  · obtain ⟨quote, hcurrent, hquote⟩ := hquoted
    obtain ⟨cs, hrest⟩ := Cursor.rest_eq_of_current? hcurrent
    obtain ⟨cs', hrest'⟩ :=
      Cursor.rest_eq_of_current? ((h.current? (isBreak_of_isQuote hquote)).2 hcurrent)
    rw [readValue_of_quote hrest hquote, readValue_of_quote hrest' hquote]
    exact (agrees_readQuoted h hsource hquote hrest).map
      fun _ _ hsame => ⟨hsame.1.2.symm, hsame.2⟩
  · have hplain : ∀ d, c.current? = some d → isQuote d = false := by
      intro d hd
      cases hquote : isQuote d with
      | false => rfl
      | true => exact absurd ⟨d, hd, hquote⟩ hquoted
    have hplain' : ∀ d, c'.current? = some d → isQuote d = false := by
      intro d hd
      cases hquote : isQuote d with
      | false => rfl
      | true => exact absurd ⟨d, (h.current? (isBreak_of_isQuote hquote)).1 hd, hquote⟩ hquoted
    rw [readValue_of_plain hplain, readValue_of_plain hplain']
    exact agrees_readBare h

end Tokens

/-! ## Attribute lists -/

section Lists

variable {source : List Char} {c c' : Cursor}

theorem agrees_readAssignment (h : SamePlace source c c')
    (hsource : ¬ ['\\', '\n'] <:+: source) :
    Agrees source (At source Eq) (readAssignment c) (readAssignment c') := by
  unfold readAssignment
  by_cases hequals : c.current? = some '='
  · rw [if_pos hequals, if_pos ((h.current? rfl).2 hequals)]
    refine (agrees_skipFiller (h.past_current rfl hequals)).bind fun atValue atValue' _ hvalue => ?_
    refine (agrees_readValue hvalue hsource).bind fun read read' _ hread => ?_
    refine (agrees_skipFiller hread.2).bind fun last last' _ hlast => ?_
    exact .ok ⟨hread.1, hlast⟩
  · rw [if_neg hequals, if_neg (mt (h.current? rfl).1 hequals)]
    exact .ok ⟨rfl, h⟩

theorem SamePlace.past_lexeme (h : SamePlace source c c') (cls : NameClass) :
    SamePlace source (c.past (cls.lexeme c.rest)) (c'.past (cls.lexeme c.rest)) :=
  h.past_line (cls.lexeme_prefix c.rest) (break_not_mem_lexeme cls c.rest rfl)

theorem agrees_readAttribute (h : SamePlace source c c')
    (hsource : ¬ ['\\', '\n'] <:+: source) :
    Agrees source (At source Eq) (readAttribute c) (readAttribute c') := by
  unfold readAttribute
  rw [h.rest_eq, lexeme_addReturns]
  dsimp only
  split
  · exact .error (h.fault rfl)
  · refine (agrees_skipFiller (h.past_lexeme .attribute)).bind fun next next' _ hnext => ?_
    refine (agrees_readAssignment hnext hsource).bind fun read read' _ hread => ?_
    exact .ok ⟨congrArg (Attribute.mk _) hread.1, hread.2⟩

/-- Super calls are read alike. -/
theorem rel_readSuperCall? (h : SamePlace source c c') :
    Option.Rel (At source fun call call' => call'.bare = call.bare)
      (readSuperCall? c) (readSuperCall? c') := by
  unfold readSuperCall?
  rw [h.rest_eq, read?_addReturns]
  cases hread : SuperToken.read? c.rest with
  | none => exact .none
  | some token =>
      exact .some ⟨rfl,
        h.past_line (SuperToken.lexeme_prefix hread) (break_not_mem_superLexeme hread rfl)⟩

theorem rel_superCall (allowed : Bool) (h : SamePlace source c c') :
    Option.Rel (At source fun call call' => call'.bare = call.bare)
      (if allowed then readSuperCall? c else none)
      (if allowed then readSuperCall? c' else none) := by
  cases allowed with
  | false => exact .none
  | true => exact rel_readSuperCall? h

theorem agrees_readEntry (superAllowed : Bool) (h : SamePlace source c c')
    (hsource : ¬ ['\\', '\n'] <:+: source) :
    Agrees source (At source fun entry entry' => entry'.bare = entry.bare)
      (readEntry superAllowed c) (readEntry superAllowed c') := by
  have hcall := rel_superCall superAllowed h
  unfold readEntry
  generalize (if superAllowed then readSuperCall? c else none) = call at hcall ⊢
  generalize (if superAllowed then readSuperCall? c' else none) = call' at hcall ⊢
  cases hcall with
  | none =>
      refine (agrees_readAttribute h hsource).map fun read read' hread => ?_
      exact ⟨congrArg Entry.setting hread.1.symm, hread.2⟩
  | some hsame =>
      refine (agrees_skipFiller hsame.2).map fun last last' hlast => ?_
      exact ⟨congrArg Entry.superCall hsame.1, hlast⟩

theorem isNone_superCall?_bare {entry entry' : Entry} (h : entry'.bare = entry.bare) :
    entry'.superCall?.isNone = entry.superCall?.isNone := by
  cases entry <;> cases entry' <;> first | rfl | cases h

/-- Entries are read alike. -/
theorem agrees_readEntries (superAllowed : Bool) (h : SamePlace source c c')
    (hsource : ¬ ['\\', '\n'] <:+: source) :
    Agrees source
      (At source fun entries entries' => entries'.map Entry.bare = entries.map Entry.bare)
      (readEntries superAllowed c) (readEntries superAllowed c') := by
  induction hlength : c.rest.length using Nat.strongRecOn generalizing superAllowed c c' with
  | ind length ih =>
      subst hlength
      rw [readEntries_eq, readEntries_eq superAllowed c']
      refine (agrees_readEntry superAllowed h hsource).bind fun read read' hread hsame => ?_
      obtain ⟨entry, next⟩ := read
      obtain ⟨entry', next'⟩ := read'
      obtain ⟨hentry, hnext⟩ := hsame
      dsimp only at hentry hnext ⊢
      by_cases hclose : next.current? = some ')'
      · rw [if_pos hclose, if_pos ((hnext.current? rfl).2 hclose)]
        exact .ok ⟨by simp [hentry], hnext.past_current rfl hclose⟩
      rw [if_neg hclose, if_neg (mt (hnext.current? rfl).1 hclose)]
      by_cases hcomma : next.current? = some ','
      · rw [if_pos hcomma, if_pos ((hnext.current? rfl).2 hcomma), isNone_superCall?_bare hentry]
        refine (agrees_skipFiller (hnext.past_current rfl hcomma)).bind
          fun later later' hfiller hlater => ?_
        have hshorter : later.rest.length < c.rest.length := by
          obtain ⟨_, hfirst, hne⟩ := readEntry_consumes hread
          obtain ⟨_, hskipped⟩ := skipFiller_consumes hfiller
          have hlt := hfirst.length_lt hne
          have hmark := Cursor.past_current_length_lt hcomma
          have hle := hskipped.length_le
          omega
        refine (ih _ hshorter _ hlater rfl).bind fun others others' _ hothers => ?_
        exact .ok ⟨by simp [hentry, hothers.1], hothers.2⟩
      · rw [if_neg hcomma, if_neg (mt (hnext.current? rfl).1 hcomma)]
        exact .error (hnext.fault rfl)

/-- Attribute lists are read alike. -/
theorem agrees_readAttributeGroup (h : SamePlace source c c') (hopen : c.current? = some '(')
    (hsource : ¬ ['\\', '\n'] <:+: source) :
    Agrees source (At source fun group group' => group'.bare = group.bare)
      (readAttributeGroup c) (readAttributeGroup c') := by
  unfold readAttributeGroup
  refine (agrees_skipFiller (h.past_current rfl hopen)).bind fun inner inner' _ hinner => ?_
  by_cases hclose : inner.current? = some ')'
  · rw [if_pos hclose, if_pos ((hinner.current? rfl).2 hclose)]
    exact .ok ⟨rfl, hinner.past_current rfl hclose⟩
  · rw [if_neg hclose, if_neg (mt (hinner.current? rfl).1 hclose)]
    refine (agrees_readEntries true hinner hsource).bind fun read read' _ hread => ?_
    refine .ok ⟨?_, hread.2⟩
    have hbare := ofEntries_bare read.1 (c.spanTo read.2)
    have hbare' := ofEntries_bare read'.1 (c'.spanTo read'.2)
    rw [hread.1, ← hbare] at hbare'
    exact hbare'

theorem agrees_readAttributes (h : SamePlace source c c')
    (hsource : ¬ ['\\', '\n'] <:+: source) :
    Agrees source
      (At source fun group group' =>
        group'.map AttributeGroup.bare = group.map AttributeGroup.bare)
      (readAttributes c) (readAttributes c') := by
  unfold readAttributes
  by_cases hopen : c.current? = some '('
  · rw [if_pos hopen, if_pos ((h.current? rfl).2 hopen)]
    refine (agrees_readAttributeGroup h hopen hsource).map fun read read' hread => ?_
    exact ⟨congrArg some hread.1, hread.2.skipGaps⟩
  · rw [if_neg hopen, if_neg (mt (h.current? rfl).1 hopen)]
    exact .ok ⟨rfl, h⟩

end Lists

/-! ## Headings -/

section Headings

variable {source : List Char} {c c' : Cursor}

theorem at_readMark (h : SamePlace source c c') : At source Eq (readMark c) (readMark c') := by
  unfold readMark
  by_cases hmark : c.current? = some '@'
  · rw [if_pos hmark, if_pos ((h.current? rfl).2 hmark)]
    exact ⟨rfl, h.past_current rfl hmark⟩
  · rw [if_neg hmark, if_neg (mt (h.current? rfl).1 hmark)]
    exact ⟨rfl, h⟩

theorem at_readTag (h : SamePlace source c c') : At source Eq (readTag c) (readTag c') := by
  unfold readTag
  rw [h.rest_eq, lexeme_addReturns]
  dsimp only
  split
  · exact ⟨rfl, h⟩
  · exact ⟨rfl, (h.past_lexeme .tag).skipGaps⟩

/-- The slots of name lists are read alike. -/
theorem at_readSlots (h : SamePlace source c c') :
    At source Eq (readSlots c) (readSlots c') := by
  induction c using readSlots.induct generalizing c' with
  | case1 c name next hcomma =>
      rename_i ih
      have hnext := (h.past_lexeme .element).skipGaps
      have hcomma' := (hnext.current? rfl).2 hcomma
      have hlater := ih (hnext.past_current rfl hcomma).skipGaps
      rw [readSlots, readSlots.eq_def c', if_pos hcomma, h.rest_eq, lexeme_addReturns,
        if_pos hcomma']
      exact ⟨congrArg (nameSlot _ :: ·) hlater.1, hlater.2⟩
  | case2 c name next =>
      rename_i hcomma
      have hnext := (h.past_lexeme .element).skipGaps
      have hcomma' := mt (hnext.current? rfl).1 hcomma
      rw [readSlots, readSlots.eq_def c', if_neg hcomma, h.rest_eq, lexeme_addReturns,
        if_neg hcomma']
      exact ⟨rfl, hnext⟩

theorem at_readNames (h : SamePlace source c c') : At source Eq (readNames c) (readNames c') := by
  unfold readNames
  rw [h.rest_eq, startsComment_addReturns]
  by_cases hslash : c.current? = some '/'
  · have hslots := at_readSlots (h.past_current rfl hslash).skipGaps
    rw [hslash, (h.current? rfl).2 hslash]
    split
    · exact ⟨congrArg some hslots.1, hslots.2⟩
    · exact ⟨rfl, h⟩
  · have hslash' := mt (h.current? rfl).1 hslash
    simp only [decide_eq_false hslash, decide_eq_false hslash', Bool.false_and]
    exact ⟨rfl, h⟩

/-- Headings are read alike. -/
theorem agrees_readHeading (h : SamePlace source c c') (hsource : ¬ ['\\', '\n'] <:+: source) :
    Agrees source (At source fun heading heading' => heading'.bare = heading.bare)
      (readHeading c) (readHeading c') := by
  obtain ⟨hmark, hafterMark⟩ := at_readMark h
  obtain ⟨htag, hafterTag⟩ := at_readTag hafterMark
  obtain ⟨hnames, hafterNames⟩ := at_readNames hafterTag
  unfold readHeading
  dsimp only
  rw [← htag, ← hnames, ← hmark]
  split
  · exact .error (h.fault rfl)
  · refine (agrees_readAttributes hafterNames hsource).map fun read read' hread => ?_
    exact ⟨by simp [Heading.bare, hread.1], hread.2⟩

end Headings

end BemMarkup.Document

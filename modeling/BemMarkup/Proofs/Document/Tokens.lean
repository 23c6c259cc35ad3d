import BemMarkup.Proofs.Document.Characters
import BemMarkup.Proofs.Document.Drafts

/-!
# Reading the tokens of a draft

Every token is read back as it is written, whatever comes behind it, as long as that does not
continue the token.  A reader that meets the text of a token therefore ends directly behind
it, at `Cursor.past`, so nothing here speaks of offsets.

Names are the tokens that need to be told from what follows.  `Stops` says that a text does
not go on with a character of a name, nor with one that would make a super call of a name.

## Main results

* `lexeme_append`, `read?_lexeme_append`, `read?_name_append`: names and super calls.
* `readQuoted_eq`, `readComment_eq`, `skipFiller_eq`: quoted texts, comments and filler.
* `isName_iff_lexeme`, `QuotedToken.isValid_iff`: what can be written down is told by reading it.
* `QuotedToken.value_eq_meaning`: the value of a quoted text.
-/

namespace BemMarkup.Document

open Text

/-! ## First characters -/

/-- The first character of the text, if there is one, has the property. -/
def Heads (p : Char → Prop) (text : List Char) : Prop := ∀ d, text.head? = some d → p d

section Heads

variable {p q : Char → Prop} {text : List Char}

theorem Heads.nil : Heads p [] := by simp [Heads]

theorem Heads.cons {d : Char} (h : p d) (text : List Char) : Heads p (d :: text) := by
  intro e he
  cases he
  exact h

theorem Heads.append {front : List Char} (hfront : ∀ d ∈ front, p d) (h : Heads p text) :
    Heads p (front ++ text) := by
  cases front with
  | nil => exact h
  | cons d front => exact .cons (hfront d (by simp)) _

theorem Heads.mono (h : Heads p text) (hpq : ∀ d, p d → q d) : Heads q text :=
  fun d hd => hpq d (h d hd)

end Heads

/-- A text that does not start with a gap. -/
abbrev Gapless := Heads fun d => isGap d = false

/-! ## Cursors -/

section Cursors

variable {c : Cursor} {text rest : List Char}

theorem Cursor.rest_past (h : c.rest = text ++ rest) : (c.past text).rest = rest := by
  simp [h]

theorem Cursor.past_past (c : Cursor) (a b : List Char) : (c.past a).past b = c.past (a ++ b) := by
  simp [Cursor.past, Nat.add_assoc]

theorem skipGaps_of_gapless (h : Gapless c.rest) : c.skipGaps = c := by
  have hnone : c.rest.takeWhile isGap = [] := by
    cases hrest : c.rest with
    | nil => rfl
    | cons d rest => simp [h d (by simp [hrest])]
  rw [Cursor.skipGaps, hnone, Cursor.past_nil]

theorem skipGaps_of_blank {gap : List Char} (hgap : Blank gap) (h : c.rest = gap ++ rest) :
    c.skipGaps = (c.past gap).skipGaps := by
  have hskip : c.rest.takeWhile isGap = gap ++ rest.takeWhile isGap := by
    rw [h, List.takeWhile_append_of_pos (by simpa [Blank] using hgap)]
  rw [Cursor.skipGaps, hskip, ← Cursor.past_past, Cursor.skipGaps, Cursor.rest_past h]

theorem skipGaps_eq {gap : List Char} (hgap : Blank gap) (h : c.rest = gap ++ rest)
    (hrest : Gapless rest) : c.skipGaps = c.past gap := by
  rw [skipGaps_of_blank hgap h, skipGaps_of_gapless]
  rwa [Cursor.rest_past h]

theorem dropWhile_of_blank {gap : List Char} (hgap : Blank gap) (rest : List Char) :
    (gap ++ rest).dropWhile isGap = rest.dropWhile isGap := by
  rw [List.dropWhile_append_of_pos (by simpa [Blank] using hgap)]

theorem dropWhile_of_gapless (h : Gapless rest) : rest.dropWhile isGap = rest := by
  cases rest with
  | nil => rfl
  | cons d rest => simp [h d rfl]

end Cursors

/-! ## Names -/

/-- A character that neither continues a name nor makes a super call of one. -/
def isStop (c : Char) : Bool := !(isNameChar c || c == ':' || c == '!' || c == '.')

/-- A text that stops a name before it. -/
abbrev Stops := Heads fun c => isStop c = true

section Stops

variable {text : List Char}

theorem isStop_of_isGap {c : Char} (h : isGap c = true) : isStop c = true := by
  have hname : isNameChar c = false := by
    cases hc : isNameChar c with
    | false => rfl
    | true => simp [isGap_of_isNameChar hc] at h
  have hcolon : c ≠ ':' := by
    rintro rfl
    exact absurd h (by decide)
  have hbang : c ≠ '!' := by
    rintro rfl
    exact absurd h (by decide)
  have hdot : c ≠ '.' := by
    rintro rfl
    exact absurd h (by decide)
  simp [isStop, hname, hcolon, hbang, hdot]

theorem stops_behind_filler {filler : List Char} (hfiller : IsFiller filler) (h : Stops text) :
    Stops (filler ++ text) := by
  cases hfiller with
  | gap blank => exact h.append fun d hd => isStop_of_isGap (blank d hd)
  | @comment gap rest token blank _ _ _ =>
      have hcomment : Stops (token.lexeme ++ rest ++ text) := by
        unfold CommentToken.lexeme
        split <;> exact .cons (by decide) _
      rw [List.append_assoc]
      exact hcomment.append fun d hd => isStop_of_isGap (blank d hd)

/-- What stops a name is no name character and no colon. -/
theorem heads_of_stops (h : Stops text) : Heads (fun c => isNameChar c = false ∧ c ≠ ':') text := by
  refine h.mono fun c hstop => ?_
  simp only [isStop, Bool.not_eq_true', Bool.or_eq_false_iff, beq_eq_false_iff_ne] at hstop
  exact ⟨hstop.1.1.1, hstop.1.1.2⟩

end Stops

section Names

variable {cls : NameClass} {name rest : List Char}

theorem takeWhile_isNameChar_append {cs : List Char} (h : ∀ d ∈ cs, isNameChar d = true)
    (hstop : Heads (fun d => isNameChar d = false) rest) :
    (cs ++ rest).takeWhile isNameChar = cs := by
  rw [List.takeWhile_append_of_pos h]
  cases rest with
  | nil => simp
  | cons d rest => simp [hstop d rfl]

theorem segment_append {start : Char → Bool} (h : IsSegment start name)
    (hstop : Heads (fun d => isNameChar d = false) rest) :
    segment start (name ++ rest) = name := by
  obtain ⟨first, others, rfl, hfirst, hothers⟩ := h
  rw [List.cons_append, segment, if_pos hfirst, takeWhile_isNameChar_append hothers hstop]

/-- A name is read up to its end if what follows does not continue it. -/
theorem lexeme_append (h : cls.IsName name)
    (hstop : Heads (fun d => isNameChar d = false ∧ d ≠ ':') rest) :
    cls.lexeme (name ++ rest) = name := by
  unfold NameClass.lexeme
  dsimp only
  rcases h with h | ⟨hnamespace, first, second, rfl, hfirst, hsecond⟩
  · rw [segment_append h (hstop.mono fun _ => And.left), List.drop_left]
    have hlocal : localPart rest = [] := by
      cases rest with
      | nil => rfl
      | cons d rest =>
          have hd := (hstop d rfl).2
          unfold localPart
          split
          · rename_i hcons
            exact absurd (List.cons.inj hcons).1 hd
          · rfl
    simp [hlocal]
  · have hcolon : Heads (fun d => isNameChar d = false) (':' :: (second ++ rest)) :=
      .cons (by decide) _
    have hne : first ≠ [] := by
      obtain ⟨c, cs, rfl, -⟩ := hfirst
      simp
    have hne' : second ≠ [] := by
      obtain ⟨c, cs, rfl, -⟩ := hsecond
      simp
    rw [List.append_assoc, List.cons_append, segment_append hfirst hcolon, List.drop_left,
      localPart, segment_append hsecond (hstop.mono fun _ => And.left)]
    simp [hnamespace, hne, hne']

theorem lexeme_eq_nil (h : Heads (fun d => cls.isStart d = false) rest) :
    cls.lexeme rest = [] := by
  have hsegment : segment cls.isStart rest = [] := by
    cases rest with
    | nil => rfl
    | cons d rest => simp [segment, h d rfl]
  simp [NameClass.lexeme, hsegment]

/-- A name is a text that is read as a name up to its end. -/
theorem isName_iff_lexeme : cls.IsName name ↔ name ≠ [] ∧ cls.lexeme name = name := by
  constructor
  · intro h
    have hread := lexeme_append h .nil
    rw [List.append_nil] at hread
    exact ⟨ne_nil_of_isName h, hread⟩
  · rintro ⟨hne, hread⟩
    rw [← hread] at hne ⊢
    exact NameClass.lexeme_isName hne

instance : Decidable (cls.IsName name) := decidable_of_iff _ isName_iff_lexeme.symm

end Names

/-! ## Super calls -/

section SuperCalls

variable {c : Cursor} {rest : List Char}

/-- A super call is read as it is written. -/
theorem read?_lexeme_append {token : SuperToken} (h : token.IsValid) :
    SuperToken.read? (token.lexeme ++ rest) = some token := by
  obtain ⟨_ | name⟩ := token
  · rfl
  · have hname : NameClass.element.lexeme (name ++ '!' :: rest) = name :=
      lexeme_append (h name rfl) (.cons (by decide) _)
    simp [SuperToken.lexeme, SuperToken.read?, hname, ne_nil_of_isName (h name rfl)]

theorem readSuperCall?_printed {token : SuperToken} (h : token.IsValid)
    (hrest : c.rest = token.lexeme ++ rest) :
    readSuperCall? c = some (⟨token.target.map String.ofList, c.spanTo (c.past token.lexeme)⟩,
      c.past token.lexeme) := by
  rw [readSuperCall?, hrest, read?_lexeme_append h]
  rfl

/-- A super call starts with `super` and a character that no name goes on with. -/
theorem SuperToken.lexeme_start (token : SuperToken) :
    ∃ c cs, token.lexeme = "super".toList ++ c :: cs ∧ isNameChar c = false ∧ c ≠ ':' ∧
      isStop c = false := by
  obtain ⟨_ | name⟩ := token
  · exact ⟨'!', [], rfl, by decide⟩
  · exact ⟨'.', name ++ ['!'], rfl, by decide⟩

/-- A name is no super call, nor is one that is called `super`. -/
theorem read?_name_append {cls : NameClass} {name : List Char} (h : cls.IsName name)
    (hstop : Stops rest) : SuperToken.read? (name ++ rest) = none := by
  cases hread : SuperToken.read? (name ++ rest) with
  | none => rfl
  | some token =>
      obtain ⟨c, cs, htoken, hc, hcolon, hcstop⟩ := token.lexeme_start
      obtain ⟨tail, htail⟩ := SuperToken.lexeme_prefix hread
      have hsplit : name ++ rest = "super".toList ++ c :: (cs ++ tail) := by
        rw [← htail, htoken, List.append_assoc, List.cons_append]
      -- both sides start with all their characters of names
      let isPart : Char → Bool := fun d => isNameChar d || d == ':'
      have hsuper : ∀ d ∈ "super".toList, isPart d = true :=
        List.all_eq_true.1 (by decide : "super".toList.all isPart = true)
      have hleft : (name ++ rest).takeWhile isPart = name := by
        rw [List.takeWhile_append_of_pos fun d hd => by
          simpa [isPart] using isNameChar_of_isName h d hd]
        cases rest with
        | nil => simp
        | cons d rest =>
            have hd := heads_of_stops hstop d rfl
            simp [isPart, hd.1, hd.2]
      have hright : ("super".toList ++ c :: (cs ++ tail)).takeWhile isPart = "super".toList := by
        rw [List.takeWhile_append_of_pos hsuper]
        simp [isPart, hc, hcolon]
      rw [hsplit, hright] at hleft
      rw [← hleft] at hsplit
      have hrest : rest = c :: (cs ++ tail) := List.append_cancel_left hsplit
      rw [hrest] at hstop
      rw [hstop c rfl] at hcstop
      cases hcstop

theorem readSuperCall?_name {cls : NameClass} {name : List Char} (h : cls.IsName name)
    (hstop : Stops rest) (hrest : c.rest = name ++ rest) : readSuperCall? c = none := by
  rw [readSuperCall?, hrest, read?_name_append h hstop]
  rfl

end SuperCalls

/-! ## Quoted texts -/

section Quoted

variable {c : Cursor} {rest : List Char}

theorem QuotedToken.IsValid.isQuote {token : QuotedToken} (h : token.IsValid) :
    isQuote token.quote = true := by
  rcases h.quote with hquote | hquote | hquote <;> rw [hquote] <;> decide

theorem QuotedToken.IsValid.quote_ne_backslash {token : QuotedToken} (h : token.IsValid) :
    token.quote ≠ '\\' := by
  rcases h.quote with hquote | hquote | hquote <;> rw [hquote] <;> decide

theorem endsBody_eq_false {quote d : Char} (hclose : d ≠ quote)
    (hline : quote = '\x60' ∨ d ≠ '\r' ∧ d ≠ '\n') : endsBody quote d = false := by
  rcases hline with rfl | ⟨hreturn, hfeed⟩
  · simp [endsBody, hclose]
  · simp [endsBody, isBreak, hclose, hreturn, hfeed]

theorem quotedBody_cons_of_ne (quote : Char) {d : Char} (hd : d ≠ '\\') (cs : List Char) :
    quotedBody quote (d :: cs) = if endsBody quote d then [] else d :: quotedBody quote cs := by
  rw [quotedBody]
  · rintro rfl
    exact absurd rfl hd
  · rintro _ _ rfl
    exact absurd rfl hd

/-- The body of a quoted text ends at the quote behind it. -/
theorem quotedBody_append {quote : Char} (hquote : quote ≠ '\\') {body : List Char}
    (h : IsBody quote body) : quotedBody quote (body ++ quote :: rest) = body := by
  induction h with
  | nil =>
      have hends : endsBody quote quote = true := by simp [endsBody]
      rw [List.nil_append, quotedBody_cons_of_ne quote hquote, if_pos hends]
  | escape _ ih => rw [List.cons_append, List.cons_append, quotedBody, ih]
  | plain hescape hclose hline _ ih =>
      rw [List.cons_append, quotedBody_cons_of_ne quote hescape,
        if_neg (by simp [endsBody_eq_false hclose hline]), ih]

/-- A quoted text is read as it is written. -/
theorem readQuoted_eq {token : QuotedToken} (hvalid : token.IsValid)
    (h : c.rest = token.lexeme ++ rest) :
    readQuoted token.quote c = .ok (token, c.past token.lexeme) := by
  have hbody : quotedBody token.quote (c.rest.drop 1) = token.body := by
    have hdrop : c.rest.drop 1 = token.body ++ token.quote :: rest := by
      simp [h, QuotedToken.lexeme]
    rw [hdrop, quotedBody_append hvalid.quote_ne_backslash hvalid.body]
  have hend : (c.past (token.quote :: token.body)).current? = some token.quote := by
    have hrest : (c.past (token.quote :: token.body)).rest = token.quote :: rest :=
      Cursor.rest_past (by simp [h, QuotedToken.lexeme])
    rw [Cursor.current?, hrest]
    rfl
  unfold readQuoted
  dsimp only
  rw [hbody, if_pos hend]

/-- A character of a body that is no backslash stands for itself. -/
theorem IsBody.cons_plain {quote c : Char} {cs rest : List Char}
    (hlone : c = '\\' → cs = [] → False) (hescape : ∀ d tail, c = '\\' → cs = d :: tail → False)
    (hends : ¬ endsBody quote c = true) (h : IsBody quote rest) : IsBody quote (c :: rest) := by
  have hplain : c ≠ '\\' := by
    intro hc
    cases cs with
    | nil => exact hlone hc rfl
    | cons d cs => exact hescape d cs hc rfl
  simp only [endsBody, Bool.or_eq_true, Bool.and_eq_true, beq_iff_eq, bne_iff_ne, not_or,
    not_and, isBreak] at hends
  refine .plain hplain hends.1 ?_ h
  by_cases hbacktick : quote = '\x60'
  · exact .inl hbacktick
  · exact .inr (hends.2 hbacktick)

theorem isBody_quotedBody {quote : Char} {cs rest : List Char}
    (h : cs = quotedBody quote cs ++ quote :: rest) : IsBody quote (quotedBody quote cs) := by
  fun_induction quotedBody quote cs generalizing rest with
  | case1 => exact .nil
  | case2 =>
      have hlength := congrArg List.length h
      simp at hlength
  | case3 c cs ih => exact .escape (ih (by simpa using h))
  | case4 => exact .nil
  | case5 c cs hlone hescape hends ih =>
      exact .cons_plain hlone hescape hends (ih (by simpa using h))

/-- A quoted text can be written down exactly if its body is read up to its end. -/
theorem QuotedToken.isValid_iff {token : QuotedToken} : token.IsValid ↔
    isQuote token.quote = true ∧
      quotedBody token.quote (token.body ++ [token.quote]) = token.body := by
  constructor
  · intro h
    exact ⟨h.isQuote, quotedBody_append h.quote_ne_backslash h.body⟩
  · rintro ⟨hquote, hbody⟩
    refine ⟨by simpa [isQuote, or_assoc] using hquote, ?_⟩
    have hsplit : token.body ++ [token.quote] =
        quotedBody token.quote (token.body ++ [token.quote]) ++ token.quote :: [] := by rw [hbody]
    rw [← hbody]
    exact isBody_quotedBody hsplit

instance {token : QuotedToken} : Decidable token.IsValid :=
  decidable_of_iff _ QuotedToken.isValid_iff.symm

/-- What is stored of a quoted text is what it means. -/
theorem QuotedToken.value_eq_meaning (token : QuotedToken) : token.value = token.meaning := by
  rw [QuotedToken.value, QuotedToken.isMultiline, Text.normalize, String.toList_ofList,
    normalizeChars_eq_joinedLines, QuotedToken.meaning, apply_ite String.ofList]
  simp only [beq_iff_eq]

end Quoted

/-! ## Comments -/

section Comments

variable {c : Cursor} {rest : List Char}

theorem beforeClosingMark?_eq {body : List Char} (h : ¬ ['*', '/'] <:+: body) :
    beforeClosingMark? (body ++ '*' :: '/' :: rest) = some body := by
  induction body with
  | nil => rfl
  | cons d body ih =>
      have hbody : ¬ ['*', '/'] <:+: body := fun hinside => h (List.infix_cons hinside)
      rw [List.cons_append, beforeClosingMark?, ih hbody]
      · rfl
      · rintro tail rfl hcons
        -- the mark would have to be inside the body, which does not end in half of one
        cases body with
        | nil => cases hcons
        | cons e body =>
            obtain ⟨rfl, -⟩ := List.cons.inj hcons
            exact h ⟨[], body, rfl⟩

theorem startsComment_lexeme_append (token : CommentToken) (rest : List Char) :
    startsComment (token.lexeme ++ rest) = true := by
  unfold CommentToken.lexeme
  split <;> rfl

/-- A comment is read as it is written, a line comment up to the end of its line. -/
theorem readComment_eq {token : CommentToken} (hvalid : token.IsValid)
    (hline : token.isMultiline = false → rest = [] ∨ StartsWithBreak rest)
    (h : c.rest = token.lexeme ++ rest) : readComment c = .ok (token, c.past token.lexeme) := by
  obtain ⟨body, isMultiline⟩ := token
  cases isMultiline with
  | true =>
      have hrest : c.rest = '/' :: '*' :: (body ++ '*' :: '/' :: rest) := by
        simp [h, CommentToken.lexeme]
      have hmark : beforeClosingMark? (body ++ '*' :: '/' :: rest) = some body :=
        beforeClosingMark?_eq (by simpa [CommentToken.IsValid] using hvalid)
      unfold readComment
      rw [hrest]
      simp only [hmark]
  | false =>
      have hrest : c.rest = '/' :: '/' :: (body ++ rest) := by
        simp [h, CommentToken.lexeme]
      have hbody : ∀ d ∈ body, (!isBreak d) = true := by
        intro d hd
        have hne : d ≠ '\r' ∧ d ≠ '\n' := by
          have hall : ∀ d ∈ body, d ≠ '\r' ∧ d ≠ '\n' := by
            simpa [CommentToken.IsValid] using hvalid
          exact hall d hd
        simp [isBreak, hne]
      have htake : (body ++ rest).takeWhile (fun d => !isBreak d) = body := by
        rw [List.takeWhile_append_of_pos hbody]
        rcases hline rfl with rfl | ⟨d, tail, rfl, hd⟩
        · simp
        · have hbreak : isBreak d = true := by rcases hd with rfl | rfl <;> decide
          simp [hbreak]
      unfold readComment
      rw [hrest]
      simp only [htake]

/-- Filler is moved over up to the token behind it. -/
theorem skipFiller_eq {filler : List Char} (hfiller : IsFiller filler) (hgap : Gapless rest)
    (hslash : rest.head? ≠ some '/') :
    ∀ {c : Cursor}, c.rest = filler ++ rest → skipFiller c = .ok (c.past filler) := by
  induction hfiller with
  | gap blank =>
      intro c h
      have hskip := skipGaps_eq blank h hgap
      have hcurrent : c.skipGaps.current? ≠ some '/' := by
        rw [hskip, Cursor.current?, Cursor.rest_past h]
        exact hslash
      rw [skipFiller_of_no_comment hcurrent, hskip]
  | @comment gap others token blank valid line _ ih =>
      intro c h
      have h' : c.rest = gap ++ (token.lexeme ++ (others ++ rest)) := by simpa using h
      have hlexeme : Gapless (token.lexeme ++ (others ++ rest)) ∧
          (token.lexeme ++ (others ++ rest)).head? = some '/' := by
        unfold CommentToken.lexeme
        split <;> exact ⟨.cons (by decide) _, rfl⟩
      have hskip := skipGaps_eq blank h' hlexeme.1
      have hrest : (c.past gap).rest = token.lexeme ++ (others ++ rest) := Cursor.rest_past h'
      have hcurrent : c.skipGaps.current? = some '/' := by
        rw [hskip, Cursor.current?, hrest]
        exact hlexeme.2
      have hread : readComment (c.past gap) = .ok (token, (c.past gap).past token.lexeme) := by
        refine readComment_eq valid (fun hmark => .inr ?_) hrest
        obtain ⟨d, tail, hd, hbreak⟩ := line hmark
        exact ⟨d, tail ++ rest, by simp [hd], hbreak⟩
      rw [skipFiller_of_comment hcurrent, hskip, hread]
      have hlast := ih (Cursor.rest_past hrest)
      rw [Cursor.past_past, Cursor.past_past, List.append_assoc] at hlast
      simpa [Except.bind, Cursor.past_past] using hlast

end Comments

end BemMarkup.Document

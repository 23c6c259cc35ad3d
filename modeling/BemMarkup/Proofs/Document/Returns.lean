import BemMarkup.Proofs.Document.Escapes
import BemMarkup.Proofs.Text.Folding

/-!
# Texts with carriage returns

The same text is written with a carriage return before every line feed where lines end so.  This
module follows that change through everything that a text is read by, character by character.

No reader of names, comments or quoted texts tells a carriage return from a line feed, so each of
them stops in the text with returns where it stops in the other one.  What it takes is the same,
with returns added where it goes over line feeds.  Folding makes one line feed of both.  Only an
escape takes a single character, whatever it is: a backslash directly before a line feed would
protect the carriage return in its place.

## Main definitions

* `Text.addReturns`, `Text.withReturns`: a text with a carriage return before every line feed.

## Main results

* `Text.takeWhile_addReturns`: what is taken is the same, with returns.
* `Text.normalizeChars_addReturns`: a folded text is the same.
* `Text.Position.after_addReturns`: lines and columns are the same.
* `lexeme_addReturns`, `read?_addReturns`, `beforeClosingMark?_addReturns`,
  `quotedBody_addReturns`: names, super calls, comments and quoted texts.
-/

namespace BemMarkup.Text

/-- A text with a carriage return before every line feed. -/
def addReturns (cs : List Char) : List Char :=
  cs.flatMap fun c => if c = '\n' then ['\r', '\n'] else [c]

/-- A source with a carriage return before every line feed. -/
def withReturns (source : String) : String := String.ofList (addReturns source.toList)

section Returns

variable {c : Char} {cs text run : List Char} {p : Char → Bool}

@[simp] theorem addReturns_nil : addReturns [] = [] := rfl

@[simp] theorem addReturns_append (xs ys : List Char) :
    addReturns (xs ++ ys) = addReturns xs ++ addReturns ys := List.flatMap_append

@[simp] theorem addReturns_feed (cs : List Char) :
    addReturns ('\n' :: cs) = '\r' :: '\n' :: addReturns cs := rfl

theorem addReturns_cons (h : c ≠ '\n') (cs : List Char) :
    addReturns (c :: cs) = c :: addReturns cs := by
  simp [addReturns, h]

theorem addReturns_of_not_mem (h : '\n' ∉ cs) : addReturns cs = cs := by
  induction cs with
  | nil => rfl
  | cons c cs ih =>
      rw [List.mem_cons, not_or] at h
      rw [addReturns_cons (Ne.symm h.1), ih h.2]

@[simp] theorem addReturns_eq_nil : addReturns cs = [] ↔ cs = [] := by
  cases cs with
  | nil => simp
  | cons c cs =>
      by_cases hc : c = '\n'
      · simp [hc]
      · simp [addReturns_cons hc]

/-- What is taken of a text with returns is what is taken of the text, with returns. -/
theorem takeWhile_addReturns (h : p '\r' = p '\n') (cs : List Char) :
    (addReturns cs).takeWhile p = addReturns (cs.takeWhile p) := by
  induction cs with
  | nil => rfl
  | cons c cs ih =>
      by_cases hc : c = '\n'
      · subst hc
        cases hp : p '\n' <;> simp [hp, h, ih]
      · rw [addReturns_cons hc]
        cases hp : p c with
        | true =>
            rw [List.takeWhile_cons_of_pos hp, List.takeWhile_cons_of_pos hp, addReturns_cons hc,
              ih]
        | false =>
            simp [hp]

/-- A character that ends no line starts the one text where it starts the other. -/
theorem head?_addReturns (h : isBreak c = false) :
    (addReturns cs).head? = some c ↔ cs.head? = some c := by
  simp only [isBreak, Bool.or_eq_false_iff, beq_eq_false_iff_ne] at h
  cases cs with
  | nil => simp
  | cons d cs =>
      by_cases hd : d = '\n'
      · subst hd
        simp [Ne.symm h.1, Ne.symm h.2]
      · simp [addReturns_cons hd]

/-- What stands at the start of the text with returns stands at the start of the text, if there
are no returns in it. -/
theorem prefix_of_addReturns (h : '\r' ∉ text) (hfront : text <+: addReturns cs) :
    text <+: cs := by
  induction text generalizing cs with
  | nil => exact List.nil_prefix
  | cons d text ih =>
      rw [List.mem_cons, not_or] at h
      cases cs with
      | nil => cases List.prefix_nil.1 hfront
      | cons c cs =>
          by_cases hc : c = '\n'
          · rw [hc, addReturns_feed] at hfront
            exact absurd (List.cons_prefix_cons.1 hfront).1.symm h.1
          · rw [addReturns_cons hc] at hfront
            obtain ⟨hd, htext⟩ := List.cons_prefix_cons.1 hfront
            exact List.cons_prefix_cons.2 ⟨hd, ih h.2 htext⟩

/-- Only the line breaks are written differently. -/
theorem sameLines_addReturns (cs : List Char) : SameLines (addReturns cs) cs := by
  induction cs with
  | nil => exact .nil
  | cons c cs ih =>
      by_cases hc : c = '\n'
      · have hreturn : ['\r', '\n'] ∈ lineBreaks := by decide
        have hfeed : ['\n'] ∈ lineBreaks := by decide
        rw [hc, addReturns_feed]
        exact .lineBreak hreturn hfeed ih
      · rw [addReturns_cons hc]
        exact .char c ih

/-- A text over several lines is stored alike. -/
theorem normalizeChars_addReturns (cs : List Char) :
    normalizeChars (addReturns cs) = normalizeChars cs :=
  normalizeChars_eq_of_sameLines (sameLines_addReturns cs)

/-- The line and the column behind a text are the same. -/
theorem Position.after_addReturns (position : Position) (cs : List Char) :
    position.after (addReturns cs) = position.after cs := by
  induction cs generalizing position with
  | nil => rfl
  | cons c cs ih =>
      by_cases hc : c = '\n'
      · subst hc
        rw [addReturns_feed, Position.after_cons, Position.after_cons, ih, Position.after_cons]
        simp [Position.next]
      · rw [addReturns_cons hc, Position.after_cons, Position.after_cons, ih]

end Returns

end BemMarkup.Text

namespace BemMarkup.Document

open Text

section Returns

variable {cs : List Char}

/-! ## Names and super calls -/

/-- A text of name characters ends no line. -/
theorem feed_not_mem_of_isNameChar (h : ∀ d ∈ cs, isNameChar d = true) : '\n' ∉ cs := by
  intro hfeed
  cases h '\n' hfeed

theorem segment_addReturns {start : Char → Bool}
    (hstart : ∀ d, start d = true → isNameChar d = true) (cs : List Char) :
    segment start (addReturns cs) = segment start cs ∧ '\n' ∉ segment start cs := by
  have hbreak : ∀ d, isNameChar d = false → ¬ start d = true := by
    intro d hd hs
    rw [hstart d hs] at hd
    cases hd
  cases cs with
  | nil => exact ⟨rfl, by simp [segment]⟩
  | cons c cs =>
      by_cases hc : start c = true
      · have hne : c ≠ '\n' := by
          rintro rfl
          exact hbreak '\n' rfl hc
        have hnames : ∀ d ∈ cs.takeWhile isNameChar, isNameChar d = true :=
          fun d hd => List.all_eq_true.1 List.all_takeWhile d hd
        have hfeed := feed_not_mem_of_isNameChar hnames
        rw [addReturns_cons hne, segment, segment, if_pos hc, if_pos hc, takeWhile_addReturns rfl,
          addReturns_of_not_mem hfeed]
        exact ⟨rfl, by simpa using ⟨Ne.symm hne, hfeed⟩⟩
      · have hnil : segment start (c :: cs) = [] := by rw [segment, if_neg hc]
        refine ⟨?_, by simp [hnil]⟩
        rw [hnil]
        by_cases hne : c = '\n'
        · rw [hne, addReturns_feed, segment, if_neg (hbreak '\r' rfl)]
        · rw [addReturns_cons hne, segment, if_neg hc]

theorem localPart_addReturns (cs : List Char) : localPart (addReturns cs) = localPart cs := by
  have hother : ∀ {c : Char} (rest : List Char), c ≠ ':' → localPart (c :: rest) = [] := by
    intro c rest hc
    unfold localPart
    split
    · rename_i hcons
      exact absurd (List.cons.inj hcons).1 hc
    · rfl
  cases cs with
  | nil => rfl
  | cons c cs =>
      by_cases hc : c = ':'
      · subst hc
        rw [addReturns_cons (by decide), localPart, localPart,
          (segment_addReturns (fun _ => isNameChar_of_isLetterOrUnderscore) cs).1]
      · rw [hother cs hc]
        by_cases hne : c = '\n'
        · rw [hne, addReturns_feed, hother _ (by decide)]
        · rw [addReturns_cons hne, hother _ hc]

/-- A name is read alike. -/
theorem lexeme_addReturns (cls : NameClass) (cs : List Char) :
    cls.lexeme (addReturns cs) = cls.lexeme cs := by
  obtain ⟨hsegment, hfeed⟩ :=
    segment_addReturns (fun _ (hstart : cls.isStart _ = true) => isNameChar_of_isStart hstart) cs
  obtain ⟨rest, hrest⟩ := segment_prefix cls.isStart cs
  have hrest' : segment cls.isStart cs ++ addReturns rest = addReturns cs := by
    rw [← addReturns_of_not_mem hfeed, ← addReturns_append, hrest]
  unfold NameClass.lexeme
  dsimp only
  rw [hsegment, drop_length_of_append_eq hrest', drop_length_of_append_eq hrest,
    localPart_addReturns]

theorem break_not_mem_of_isName {cls : NameClass} {name : List Char} (h : cls.IsName name)
    {d : Char} (hd : isBreak d = true) : d ∉ name := by
  intro hmem
  rcases isNameChar_of_isName h d hmem with hname | rfl
  · have hgap := isGap_of_isNameChar hname
    rw [isGap_of_isBreak hd] at hgap
    cases hgap
  · cases hd

theorem break_not_mem_lexeme (cls : NameClass) (cs : List Char) {d : Char}
    (hd : isBreak d = true) : d ∉ cls.lexeme cs := by
  by_cases hnil : cls.lexeme cs = []
  · simp [hnil]
  · exact break_not_mem_of_isName (NameClass.lexeme_isName hnil) hd

theorem break_not_mem_superLexeme {token : SuperToken} (h : SuperToken.read? cs = some token)
    {d : Char} (hd : isBreak d = true) : d ∉ token.lexeme := by
  have hplain : ∀ e : Char, isBreak e = false → d ≠ e := by
    rintro e he rfl
    rw [hd] at he
    cases he
  have hvalid := isValid_of_read? h
  obtain ⟨_ | name⟩ := token
  · simp [SuperToken.lexeme, hplain 's' rfl, hplain 'u' rfl, hplain 'p' rfl, hplain 'e' rfl,
      hplain 'r' rfl, hplain '!' rfl]
  · simp [SuperToken.lexeme, hplain 's' rfl, hplain 'u' rfl, hplain 'p' rfl, hplain 'e' rfl,
      hplain 'r' rfl, hplain '.' rfl, hplain '!' rfl,
      break_not_mem_of_isName (hvalid name rfl) hd]

/-- A super call is read alike. -/
theorem read?_addReturns (cs : List Char) :
    SuperToken.read? (addReturns cs) = SuperToken.read? cs := by
  cases hread : SuperToken.read? cs with
  | some token =>
      obtain ⟨rest, rfl⟩ := SuperToken.lexeme_prefix hread
      rw [addReturns_append, addReturns_of_not_mem (break_not_mem_superLexeme hread rfl)]
      exact read?_lexeme_append (isValid_of_read? hread)
  | none =>
      cases hread' : SuperToken.read? (addReturns cs) with
      | none => rfl
      | some token =>
          have hfront := prefix_of_addReturns (break_not_mem_superLexeme hread' rfl)
            (SuperToken.lexeme_prefix hread')
          obtain ⟨rest, rfl⟩ := hfront
          rw [read?_lexeme_append (isValid_of_read? hread')] at hread
          cases hread

/-! ## Comments and quoted texts -/

theorem startsComment_addReturns (cs : List Char) :
    startsComment (addReturns cs) = startsComment cs := by
  rcases cs with _ | ⟨c, cs⟩
  · rfl
  by_cases hslash : c = '/'
  · subst hslash
    rw [addReturns_cons (by decide)]
    rcases cs with _ | ⟨d, cs⟩
    · rfl
    by_cases hd : d = '\n'
    · rw [hd, addReturns_feed]
      rfl
    · rw [addReturns_cons hd]
      unfold startsComment
      split <;> split <;> simp_all
  · rw [startsComment_eq_false_of_ne cs hslash]
    by_cases hc : c = '\n'
    · rw [hc, addReturns_feed]
      exact startsComment_eq_false_of_ne _ (by decide)
    · rw [addReturns_cons hc]
      exact startsComment_eq_false_of_ne _ hslash

/-- A comment with a closing mark is read alike. -/
theorem beforeClosingMark?_addReturns (cs : List Char) :
    beforeClosingMark? (addReturns cs) = (beforeClosingMark? cs).map addReturns := by
  induction cs using beforeClosingMark?.induct with
  | case1 => rfl
  | case2 rest =>
      rw [addReturns_cons (by decide), addReturns_cons (by decide)]
      rfl
  | case3 c cs hne ih =>
      rw [beforeClosingMark?.eq_3 c cs hne, Option.map_map]
      by_cases hc : c = '\n'
      · subst hc
        rw [addReturns_feed, beforeClosingMark?, beforeClosingMark?, ih]
        · simp [Function.comp_def]
        · rintro _ ⟨⟩
        · rintro _ ⟨⟩
      · rw [addReturns_cons hc, beforeClosingMark?, ih, Option.map_map]
        · simp [Function.comp_def, addReturns_cons hc]
        · intro tail hstar hslash
          -- the slash of a mark would be there without returns
          have hhead : (addReturns cs).head? = some '/' := by rw [hslash]; rfl
          obtain ⟨tail', htail⟩ := List.head?_eq_some_iff.1 ((head?_addReturns rfl).1 hhead)
          exact hne tail' hstar htail

theorem endsBody_return {quote : Char} (h : isQuote quote = true) :
    endsBody quote '\r' = endsBody quote '\n' := by
  simp only [isQuote, Bool.or_eq_true, beq_iff_eq, or_assoc] at h
  rcases h with rfl | rfl | rfl <;> rfl

theorem ne_backslash {c : Char} (hlone : c = '\\' → cs = [] → False)
    (hescape : ∀ d tail, c = '\\' → cs = d :: tail → False) : c ≠ '\\' := by
  intro hc
  cases cs with
  | nil => exact hlone hc rfl
  | cons d cs => exact hescape d cs hc rfl

/-- A quoted text in one line has no line feed, unless a backslash protects it. -/
theorem feed_not_mem_quotedBody {quote : Char} (hline : quote ≠ '\x60')
    (h : ¬ ['\\', '\n'] <:+: cs) : '\n' ∉ quotedBody quote cs := by
  fun_induction quotedBody quote cs with
  | case1 => simp
  | case2 => simp
  | case3 c cs ih =>
      have hc : c ≠ '\n' := by
        rintro rfl
        exact h ⟨[], cs, rfl⟩
      have hcs : '\n' ∉ quotedBody quote cs :=
        ih fun hinside => h (List.infix_cons (List.infix_cons hinside))
      simpa using ⟨Ne.symm hc, hcs⟩
  | case4 => simp
  | case5 c cs hlone hescape hends ih =>
      have hc : c ≠ '\n' := by
        rintro rfl
        exact hends (by simp [endsBody, isBreak, hline])
      have hcs : '\n' ∉ quotedBody quote cs := ih fun hinside => h (List.infix_cons hinside)
      simpa using ⟨Ne.symm hc, hcs⟩

/-- A quoted text is read alike, unless a backslash protects a line feed. -/
theorem quotedBody_addReturns {quote : Char} (hquote : isQuote quote = true)
    (h : ¬ ['\\', '\n'] <:+: cs) :
    quotedBody quote (addReturns cs) = addReturns (quotedBody quote cs) := by
  fun_induction quotedBody quote cs with
  | case1 => rfl
  | case2 => rfl
  | case3 c cs ih =>
      have hc : c ≠ '\n' := by
        rintro rfl
        exact h ⟨[], cs, rfl⟩
      have hcs : ¬ ['\\', '\n'] <:+: cs :=
        fun hinside => h (List.infix_cons (List.infix_cons hinside))
      rw [addReturns_cons (by decide), addReturns_cons hc, quotedBody, ih hcs,
        addReturns_cons (by decide), addReturns_cons hc]
  | case4 c cs hlone hescape hends =>
      by_cases hc : c = '\n'
      · subst hc
        rw [addReturns_feed, quotedBody_cons_of_ne quote (by decide), endsBody_return hquote,
          if_pos hends]
        rfl
      · rw [addReturns_cons hc, quotedBody_cons_of_ne quote (ne_backslash hlone hescape),
          if_pos hends]
        rfl
  | case5 c cs hlone hescape hends ih =>
      have hcs : ¬ ['\\', '\n'] <:+: cs := fun hinside => h (List.infix_cons hinside)
      by_cases hc : c = '\n'
      · subst hc
        rw [addReturns_feed, quotedBody_cons_of_ne quote (by decide), endsBody_return hquote,
          if_neg hends, quotedBody_cons_of_ne quote (by decide), if_neg hends, ih hcs,
          addReturns_feed]
      · rw [addReturns_cons hc, quotedBody_cons_of_ne quote (ne_backslash hlone hescape),
          if_neg hends, ih hcs, addReturns_cons hc]

/-- The value of a quoted text is the same. -/
theorem value_addReturns {quote : Char} (h : ¬ ['\\', '\n'] <:+: cs) :
    QuotedToken.value ⟨quote, addReturns (quotedBody quote cs)⟩ =
      QuotedToken.value ⟨quote, quotedBody quote cs⟩ := by
  by_cases hline : quote = '\x60'
  · have htwo : ∀ body,
        QuotedToken.value ⟨quote, body⟩ = String.ofList (normalizeChars body) := by
      intro body
      simp [QuotedToken.value, QuotedToken.isMultiline, hline, Text.normalize]
    rw [htwo, htwo, normalizeChars_addReturns]
  · rw [addReturns_of_not_mem (feed_not_mem_quotedBody hline h)]

end Returns

end BemMarkup.Document

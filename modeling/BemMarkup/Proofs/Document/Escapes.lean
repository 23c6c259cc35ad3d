import BemMarkup.Text.Literal
import BemMarkup.Proofs.Document.Excerpts
import BemMarkup.Proofs.Document.Naming

/-!
# Escapes in the values of literals

A quoted text is read by pairs: a backslash is taken together with the character behind it.  What
stands between the quotes is therefore a sequence of complete units, characters other than
backslashes and escapes.  Between backticks the layout is folded afterwards, and folding knows
nothing of escapes.

A run of white space that is folded inside the text is still one character or more, so a backslash
before it still has its partner.  White space at the end is dropped, and if it starts with the
partner of a backslash, the backslash is left alone.  This is the only way to lose half of an
escape, and it leaves the value with one backslash too many at its end.

Where an escape ends is found by going over the text once.  `endsInEscape` does so, and passes over
concatenations, so folding is followed run by run.

## Main definitions

* `Text.Complete`: a text that is made of complete units.
* `Text.EndsInEscapedWhite`: white space at the end of a text starts inside an escape.
* `Literal.KeepsEscapes`: what becomes of the escapes of a literal.

## Main results

* `Text.complete_normalizeChars`: folding keeps a text complete unless it ends so.
* `parse_keepsEscapes`: the literals of a document, at any depth.
* `escapedSpace_is_halved`: white space that is escaped at the end of a text is lost.
-/

namespace BemMarkup.Text

/-! ## Complete texts -/

/-- A text that is made of characters other than backslashes, and of backslashes with the
character behind each. -/
inductive Complete : List Char → Prop
  | nil : Complete []
  | plain {c : Char} {cs : List Char} (ne : c ≠ '\\') (others : Complete cs) : Complete (c :: cs)
  | escape {c : Char} {cs : List Char} (others : Complete cs) : Complete ('\\' :: c :: cs)

/-- Whether a text ends behind a backslash that lacks its partner, if it starts behind such a
backslash or not. -/
def endsInEscape : (inside : Bool) → List Char → Bool
  | inside, [] => inside
  | true, _ :: cs => endsInEscape false cs
  | false, c :: cs => endsInEscape (c == '\\') cs

/-- The white space at the end of a text starts with the partner of a backslash. -/
def EndsInEscapedWhite (cs : List Char) : Prop :=
  ∃ front white, cs = front ++ '\\' :: white ∧ Complete front ∧ white ≠ [] ∧
    ∀ c ∈ white, isWhite c = true

section Complete

variable {cs run white : List Char} {inside : Bool}

@[simp] theorem endsInEscape_nil (inside : Bool) : endsInEscape inside [] = inside := by
  cases inside <;> rfl

theorem endsInEscape_append (inside : Bool) (xs ys : List Char) :
    endsInEscape inside (xs ++ ys) = endsInEscape (endsInEscape inside xs) ys := by
  induction xs generalizing inside with
  | nil => rw [List.nil_append, endsInEscape_nil]
  | cons x xs ih => cases inside <;> simp only [List.cons_append, endsInEscape, ih]

theorem Complete.endsInEscape (h : Complete cs) : endsInEscape false cs = false := by
  induction h with
  | nil => rfl
  | plain ne _ ih => rw [Text.endsInEscape, beq_false_of_ne ne, ih]
  | escape _ ih => exact ih

/-- A text is complete, or it is so but for a backslash at its end. -/
theorem complete_or_dangling : ∀ cs : List Char,
    Complete cs ∨ ∃ front, Complete front ∧ cs = front ++ ['\\']
  | [] => .inl .nil
  | [c] => by
      by_cases hc : c = '\\'
      · exact .inr ⟨[], .nil, by rw [hc]; rfl⟩
      · exact .inl (.plain hc .nil)
  | c :: d :: cs => by
      by_cases hc : c = '\\'
      · subst hc
        rcases complete_or_dangling cs with h | ⟨front, h, rfl⟩
        · exact .inl (.escape h)
        · exact .inr ⟨'\\' :: d :: front, .escape h, rfl⟩
      · rcases complete_or_dangling (d :: cs) with h | ⟨front, h, hcons⟩
        · exact .inl (.plain hc h)
        · exact .inr ⟨c :: front, .plain hc h, by rw [hcons]; rfl⟩

theorem endsInEscape_of_dangling {front : List Char} (h : Complete front) :
    endsInEscape false (front ++ ['\\']) = true := by
  rw [endsInEscape_append, h.endsInEscape]
  rfl

theorem complete_iff : Complete cs ↔ endsInEscape false cs = false := by
  refine ⟨Complete.endsInEscape, fun h => ?_⟩
  rcases complete_or_dangling cs with hcomplete | ⟨front, hfront, rfl⟩
  · exact hcomplete
  · rw [endsInEscape_of_dangling hfront] at h
    cases h

theorem Complete.append {xs ys : List Char} (hx : Complete xs) (hy : Complete ys) :
    Complete (xs ++ ys) := by
  rw [complete_iff, endsInEscape_append, hx.endsInEscape, hy.endsInEscape]

/-! ## Folding -/

theorem ne_backslash_of_isWhite {c : Char} (h : isWhite c = true) : c ≠ '\\' := by
  rintro rfl
  exact absurd h (by decide)

theorem complete_of_white (h : ∀ c ∈ white, isWhite c = true) : Complete white := by
  induction white with
  | nil => exact .nil
  | cons c white ih =>
      obtain ⟨hc, hwhite⟩ := List.forall_mem_cons.1 h
      exact .plain (ne_backslash_of_isWhite hc) (ih hwhite)

/-- White space completes an escape before it. -/
theorem endsInEscape_of_white (inside : Bool) (hne : white ≠ [])
    (h : ∀ c ∈ white, isWhite c = true) : endsInEscape inside white = false := by
  cases inside with
  | false => exact (complete_of_white h).endsInEscape
  | true =>
      cases white with
      | nil => exact absurd rfl hne
      | cons c white => exact (complete_of_white (List.forall_mem_cons.1 h).2).endsInEscape

/-- A run of white space that is folded completes an escape as the run does. -/
theorem endsInEscape_foldRun (inside : Bool) (h : ∀ c ∈ run, isWhite c = true) :
    endsInEscape inside (foldRun run) = endsInEscape inside run := by
  unfold foldRun
  split
  · rename_i hbreak
    have hne : run ≠ [] := by
      rintro rfl
      cases hbreak
    have hfeed : ∀ c ∈ ['\n'], isWhite c = true := List.forall_mem_singleton.2 (by decide)
    rw [endsInEscape_of_white inside (by simp) hfeed, endsInEscape_of_white inside hne h]
  · rfl

theorem endsInEscape_foldRuns (inside : Bool) (h : ∀ c ∈ run, isWhite c = true) :
    endsInEscape inside (foldRuns run cs) = endsInEscape inside (run ++ cs) := by
  induction cs generalizing inside run with
  | nil => rw [foldRuns_nil, endsInEscape_foldRun inside h, List.append_nil]
  | cons c cs ih =>
      cases hc : isWhite c with
      | true =>
          have hrun : ∀ d ∈ run ++ [c], isWhite d = true :=
            List.forall_mem_append.2 ⟨h, by simpa using hc⟩
          rw [foldRuns_cons_of_white run cs hc, ih inside hrun, List.append_assoc]
          rfl
      | false =>
          have hrest : ∀ inside, endsInEscape inside (c :: foldRuns [] cs) =
              endsInEscape inside (c :: cs) := by
            intro inside
            rw [← List.singleton_append, endsInEscape_append, ih _ (by simp), List.nil_append,
              ← endsInEscape_append, List.singleton_append]
          rw [foldRuns_cons_of_not_white run cs hc, endsInEscape_append,
            endsInEscape_foldRun inside h, hrest, ← endsInEscape_append]

/-! ## Trimming -/

/-- White space at the start of a text is no part of an escape. -/
theorem Complete.dropWhile (h : Complete cs) : Complete (cs.dropWhile isWhite) := by
  induction h with
  | nil => exact .nil
  | @plain c cs ne others ih =>
      cases hc : isWhite c with
      | true => rwa [List.dropWhile_cons_of_pos hc]
      | false =>
          rw [List.dropWhile_cons_of_neg (by simp [hc])]
          exact .plain ne others
  | escape others _ =>
      rw [List.dropWhile_cons_of_neg (by decide)]
      exact .escape others

/-- Trimming keeps a text complete, unless the white space at its end starts inside an escape. -/
theorem complete_trim (h : Complete cs) : Complete (trim cs) ↔ ¬ EndsInEscapedWhite cs := by
  constructor
  · rintro hcomplete ⟨front, white, rfl, hfront, -, hwhite⟩
    have hstart : (front ++ '\\' :: white).dropWhile isWhite =
        front.dropWhile isWhite ++ ['\\'] ++ white := by
      rw [List.dropWhile_append]
      split
      · rename_i hempty
        rw [List.isEmpty_iff.1 hempty, List.dropWhile_cons_of_neg (by decide)]
        rfl
      · simp
    rw [trim, hstart, trimEnd_append_white _ hwhite,
      trimEnd_append_of_not_white _ (by decide)] at hcomplete
    have hends := endsInEscape_of_dangling hfront.dropWhile
    rw [hcomplete.endsInEscape] at hends
    cases hends
  · intro hends
    rcases complete_or_dangling (trim cs) with hcomplete | ⟨front, hfront, htrim⟩
    · exact hcomplete
    obtain ⟨white, hsplit, hwhite⟩ := exists_white_of_trimEnd (cs.dropWhile isWhite)
    rw [show trimEnd (cs.dropWhile isWhite) = front ++ ['\\'] from htrim] at hsplit
    have hne : white ≠ [] := by
      rintro rfl
      have hdangling := endsInEscape_of_dangling hfront
      rw [← List.append_nil (front ++ _), ← hsplit, h.dropWhile.endsInEscape] at hdangling
      cases hdangling
    have hblank : ∀ c ∈ cs.takeWhile isWhite, isWhite c = true :=
      fun c hc => List.all_eq_true.1 List.all_takeWhile c hc
    refine absurd ⟨cs.takeWhile isWhite ++ front, white, ?_,
      (complete_of_white hblank).append hfront, hne, hwhite⟩ hends
    conv => lhs; rw [← List.takeWhile_append_dropWhile (p := isWhite) (l := cs), hsplit]
    simp

/-- Folding the layout of a text keeps it complete, unless the white space at its end starts
inside an escape. -/
theorem complete_normalizeChars (h : Complete cs) :
    Complete (normalizeChars cs) ↔ ¬ EndsInEscapedWhite cs := by
  rw [← complete_trim h, complete_iff, complete_iff, normalizeChars,
    endsInEscape_foldRuns false (by simp), List.nil_append]

end Complete

end BemMarkup.Text

namespace BemMarkup.Document

open Text

/-! ## Literals -/

/-- What stands between the quotes of a literal. -/
def Literal.body (l : Literal) : List Char := (l.span.text.toList.drop 1).dropLast

/-- The escapes of a literal are complete where it is written.  They are so in its value, unless
the value is folded and the text ends in white space that starts inside an escape. -/
structure Literal.KeepsEscapes (l : Literal) : Prop where
  /-- The literal is written between two quotes of a kind. -/
  quoted : ∃ quote, isQuote quote = true ∧ l.span.text.toList = quote :: (l.body ++ [quote])
  /-- What is written between them. -/
  written : Complete l.body
  /-- The value. -/
  value_eq : l.value.toList = if l.isMultiline then normalizeChars l.body else l.body
  /-- The escapes of the value. -/
  complete_iff : Complete l.value.toList ↔ ¬ (l.isMultiline = true ∧ EndsInEscapedWhite l.body)

/-- The literals of a document, at any depth. -/
def Block.literals (block : Block) : List Literal :=
  block.preorder.filterMap fun
    | (_, .literal l) => some l
    | _ => none

/-- A node that keeps the escapes of its text, if it is a literal. -/
def Node.KeepsEscapes (node : Node) : Prop :=
  ∀ l, node = .literal l → l.KeepsEscapes

section Literals

variable {c d : Cursor} {inBraces : Bool} {nodes : List Node}

theorem IsBody.complete {quote : Char} {body : List Char} (h : IsBody quote body) :
    Complete body := by
  induction h with
  | nil => exact .nil
  | escape _ ih => exact .escape ih
  | plain ne _ _ _ ih => exact .plain ne ih

theorem keepsEscapes_of_readQuoted {quote : Char} {cs : List Char} {token : QuotedToken}
    (hrest : c.rest = quote :: cs) (hquote : isQuote quote = true)
    (h : readQuoted quote c = .ok (token, d)) : (token.node c d).KeepsEscapes := by
  obtain ⟨hvalid, hsame⟩ := isValid_of_readQuoted hquote hrest h
  rintro l ⟨⟩
  have htext : (c.spanTo d).text.toList = token.lexeme := by
    rw [(readQuoted_consumes hrest h).spanTo_eq, String.toList_ofList]
  have hbody : Literal.body ⟨token.value, token.isMultiline, c.spanTo d⟩ = token.body := by
    simp [Literal.body, htext, QuotedToken.lexeme]
  have hcomplete := hvalid.body.complete
  have hvalue : token.value.toList =
      if token.isMultiline then normalizeChars token.body else token.body := by
    unfold QuotedToken.value
    split <;> simp [Text.normalize]
  refine ⟨⟨token.quote, hsame ▸ hquote, by rw [hbody]; exact htext⟩, hbody ▸ hcomplete,
    by rw [hbody]; exact hvalue, ?_⟩
  rw [hbody, hvalue]
  cases htwo : token.isMultiline with
  | true => simpa using complete_normalizeChars hcomplete
  | false => simpa using hcomplete

theorem readElement_keepsEscapes {node : Node} (h : readElement c = .ok (.leaf node, d)) :
    node.KeepsEscapes := by
  obtain ⟨⟨heading, next⟩, -, h⟩ := map_eq_ok_iff.1 h
  dsimp only at h
  split at h
  · cases h
  · cases h
    rintro _ ⟨⟩

theorem readItem_keepsEscapes {node : Node} (h : readItem inBraces c = .ok (.leaf node, d)) :
    node.KeepsEscapes ∧ node.children = [] := by
  refine ⟨?_, (readItem_wellNamed h).2⟩
  rcases readItem_cases h with ⟨quote, cs, token, hrest, hquote, htoken, hitem⟩ |
    ⟨token, -, -, hitem⟩ | ⟨call, -, -, hitem⟩ | ⟨-, -, helement⟩
  · cases hitem
    exact keepsEscapes_of_readQuoted hrest hquote htoken
  · cases hitem
    rintro _ ⟨⟩
  · cases hitem
    rintro _ ⟨⟩
  · exact readElement_keepsEscapes helement

theorem Reads.keepsEscapes (h : Reads inBraces c nodes d) :
    Everywhere Node.KeepsEscapes nodes := by
  induction h with
  | nil => exact .nil
  | leaf item _ ih =>
      obtain ⟨hnode, hchildren⟩ := readItem_keepsEscapes item
      exact .cons hnode (hchildren ▸ .nil) ih
  | element _ _ _ _ ihInside ih =>
      refine .cons ?_ ihInside ih
      rintro _ ⟨⟩

end Literals

/-! ## Documents -/

/-- **Escapes in documents.**  In a parsed document all literals, at any depth, have complete
escapes where they are written.  A value has them too, unless it is folded and white space that is
escaped stands at its end. -/
theorem parse_keepsEscapes {source : String} {block : Block} (h : parse source = .ok block) :
    Everywhere Node.KeepsEscapes block.content := by
  obtain ⟨comments, m, declaration, d, nodes, e, hcomments, -, hreads, -, rfl⟩ :=
    parts_of_parse h
  obtain ⟨last, hleading, -⟩ := reads_of_readLeadingComments hcomments
  exact hleading.keepsEscapes.append hreads.keepsEscapes

/-- Also a literal between braces keeps its escapes. -/
theorem escapes_between_braces :
    ∃ block, parse "p\x7b 'a\\'' \x60b\\ c\x60 \x7d" = .ok block ∧
      block.literals.map (·.value) = ["a\\'", "b\\ c"] ∧
      Everywhere Node.KeepsEscapes block.content := by
  have hread : (parse "p\x7b 'a\\'' \x60b\\ c\x60 \x7d").toOption.map
      (fun block => block.literals.map (·.value)) = some ["a\\'", "b\\ c"] := by
    decide +kernel
  cases hparse : parse "p\x7b 'a\\'' \x60b\\ c\x60 \x7d" with
  | error e => simp [hparse, Except.toOption] at hread
  | ok block =>
      rw [hparse] at hread
      exact ⟨block, rfl, Option.some.inj hread, parse_keepsEscapes hparse⟩

/-- An escaped space at the end of a text is lost, and its backslash stays alone. -/
theorem escapedSpace_is_halved :
    ∃ block, parse "\x60a\\ \x60" = .ok block ∧
      ∃ l ∈ block.literals, l.value = "a\\" ∧ ¬ Complete l.value.toList := by
  have hread : (parse "\x60a\\ \x60").toOption.map
      (fun block => block.literals.map (·.value)) = some ["a\\"] := by
    decide +kernel
  cases hparse : parse "\x60a\\ \x60" with
  | error e => simp [hparse, Except.toOption] at hread
  | ok block =>
      rw [hparse] at hread
      obtain ⟨l, hliterals, hvalue⟩ := List.map_eq_singleton_iff.1 (Option.some.inj hread)
      refine ⟨block, rfl, l, by rw [hliterals]; exact List.mem_singleton_self l, hvalue, ?_⟩
      rw [hvalue, complete_iff]
      decide

end BemMarkup.Document

import BemMarkup.Proofs.Compilation.Inlining
import BemMarkup.Proofs.Compilation.Redeclaration
import BemMarkup.Proofs.Document.Printing
import BemMarkup.Proofs.Rendering.StartTags
import BemMarkup.Proofs.Session.Extension

/-!
# Quoting any text

Every text can be written as a literal.  Four characters are quoted: the backslash, the quote that
closes the literal, and the two line breaks.  What is written so can stand between quotes, since
no backslash, quote or break is left without protection, and it stands for the text, since each
character is unescaped alone, whatever comes behind it.

The literal is stored as it is written.  As content it is unescaped and nothing else happens to
it.  As the value of an attribute it is also escaped for HTML, and whoever reads the markup finds
the text by replacing five entities.

## Main definitions

* `Text.quoted`: a text with its backslashes, quotes and line breaks quoted.

## Main results

* `Text.unescapeChars_quoteChars`: what is quoted stands for the text.
* `Document.isBody_quoteChars`: it can stand between quotes.
* `Document.parse_quotingSource`: a source with a text as an attribute and as content is parsed.
* `Session.quoted_text_rendered`: both come out of the rendering.
-/

namespace BemMarkup

open Document Template

/-! ## Quoting -/

namespace Text

/-- A character as it is written in a literal between single quotes. -/
def quoteChar : Char → List Char
  | '\\' => ['\\', '\\']
  | '\'' => ['\\', '\'']
  | '\n' => ['\\', 'n']
  | '\r' => ['\\', 'r']
  | c => [c]

/-- The characters that write a text in a literal. -/
def quoteChars (cs : List Char) : List Char := cs.flatMap quoteChar

/-- A text as it is written in a literal. -/
def quoted (text : String) : String := String.ofList (quoteChars text.toList)

theorem quoteChars_cons (c : Char) (cs : List Char) :
    quoteChars (c :: cs) = quoteChar c ++ quoteChars cs := rfl

theorem unescapeChars_quoteChar_append (c : Char) (cs : List Char) :
    unescapeChars (quoteChar c ++ cs) = c :: unescapeChars cs := by
  unfold quoteChar
  split
  case h_5 hbackslash _ _ _ => exact unescapeChars_cons_of_ne cs hbackslash
  all_goals rfl

/-- What is quoted stands for the text. -/
theorem unescapeChars_quoteChars (cs : List Char) : unescapeChars (quoteChars cs) = cs := by
  induction cs with
  | nil => rfl
  | cons c cs ih => rw [quoteChars_cons, unescapeChars_quoteChar_append, ih]

theorem unescape_quoted (text : String) : unescape (quoted text) = text := by
  rw [unescape, quoted, String.toList_ofList, unescapeChars_quoteChars, String.ofList_toList]

end Text

/-! ## The source -/

namespace Document

open Text

theorem IsBody.quoteChar_append {cs : List Char} (h : IsBody '\'' cs) (c : Char) :
    IsBody '\'' (quoteChar c ++ cs) := by
  unfold quoteChar
  split
  case h_5 hbackslash hquote hfeed hreturn =>
      exact .plain hbackslash hquote (.inr ⟨hreturn, hfeed⟩) h
  all_goals exact .escape h

/-- What is quoted can stand between quotes. -/
theorem isBody_quoteChars (cs : List Char) : IsBody '\'' (quoteChars cs) := by
  induction cs with
  | nil => exact .nil
  | cons c cs ih => exact ih.quoteChar_append c

/-- The literal that is written for a text. -/
def quotedToken (text : String) : QuotedToken := ⟨'\'', quoteChars text.toList⟩

/-- The source of a block that has a text as an attribute and as content. -/
def quotingSource (text : String) : String :=
  "#b\np(title='" ++ quoted text ++ "')\x7b'" ++ quoted text ++ "'\x7d"

/-- The element in this source. -/
def quotingHeading (text : String) : HeadingDraft :=
  ⟨false, some ['p'], none, some [.setting "title".toList (some (quotedToken text))]⟩

section Source

variable (text : String)

theorem quotedToken_isValid : (quotedToken text).IsValid :=
  ⟨.inl rfl, isBody_quoteChars text.toList⟩

theorem quotingHeading_prints : (quotingHeading text).Prints
    ("p(title=".toList ++ ((quotedToken text).lexeme ++ [')'])) := by
  have hname : NameClass.attribute.IsName "title".toList :=
    .inl ⟨'t', ['i', 't', 'l', 'e'], rfl, rfl, List.all_eq_true.1 rfl⟩
  have hentry : EntryDraft.Prints (.setting "title".toList (some (quotedToken text)))
      ("title".toList ++ ([] ++ '=' :: ([] ++ (quotedToken text).lexeme))) :=
    .value hname (.gap .nil) (.gap .nil) (quotedToken_isValid text)
  have hlist : PrintsAttributes (some [.setting "title".toList (some (quotedToken text))])
      ('(' :: ([] ++ (("title".toList ++ ([] ++ '=' :: ([] ++ (quotedToken text).lexeme)) ++ []) ++
        [')']))) :=
    .entries (.gap .nil) (.last hentry (.gap .nil)) (Nat.zero_le 1)
  have htag : ∀ tag, (quotingHeading text).tag = some tag → NameClass.tag.IsName tag := by
    rintro _ ⟨⟩
    exact .inl ⟨'p', [], rfl, rfl, by simp⟩
  have hheading : (quotingHeading text).Prints ((quotingHeading text).front ++ ([] ++ ([] ++
      ([] ++ '(' :: ([] ++ (("title".toList ++ ([] ++ '=' :: ([] ++ (quotedToken text).lexeme)) ++
        []) ++ [')'])))))) :=
    .intro htag (.inl (by simp [quotingHeading])) .nil (fun _ => rfl) .none .nil (fun _ => rfl)
      hlist
  simpa [quotingHeading, HeadingDraft.front] using hheading

/-- The content of the source is written down behind its declaration. -/
theorem quoting_prints : Document.Prints false true
    [.element (quotingHeading text) (some [.literal (quotedToken text)])]
    ("\np(title=".toList ++ ((quotedToken text).lexeme ++ (")\x7b".toList ++
      ((quotedToken text).lexeme ++ ['\x7d'])))) := by
  have hinside : Document.Prints true false [.literal (quotedToken text)]
      ([] ++ ((quotedToken text).lexeme ++ [])) :=
    .flat .nil (.literal (quotedToken_isValid text)) (separatedFrom_nil False.elim) (.nil .nil)
  have hfeed : Blank ['\n'] := .singleton (by decide)
  have hall := Prints.braced hfeed (quotingHeading_prints text) .nil hinside (by simp)
    (Prints.nil .nil : Document.Prints false true [] [])
  simpa using hall

/-- The source is parsed for every text.  The attribute and the literal have the text as it is
written. -/
theorem parse_quotingSource : ∃ block list place whole,
    parse (quotingSource text) = .ok block ∧ block.name = some "b" ∧
      block.content = [.element ⟨⟨false, some "p", none,
        some ⟨none, [⟨"title", quoted text⟩], list⟩⟩,
          some [.literal ⟨quoted text, false, place⟩], whole⟩] := by
  have hsource : quotingSource text = String.ofList ('#' :: (['b'] ++
      ("\np(title=".toList ++ ((quotedToken text).lexeme ++ (")\x7b".toList ++
        ((quotedToken text).lexeme ++ ['\x7d'])))))) := by
    rw [← String.toList_inj, String.toList_ofList]
    simp [quotingSource, quotedToken, QuotedToken.lexeme, quoted, String.toList_append]
  have hblock : NameClass.block.IsName ['b'] := .inl ⟨'b', [], rfl, by decide, by simp⟩
  obtain ⟨block, hparse, hname, hbare⟩ := exists_parse_of_declared hblock
    (.inr ⟨'\n', _, rfl, by decide⟩) (quoting_prints text)
  rw [Draft.nodes, Draft.node, Draft.nodes, Draft.nodes, Draft.node, Draft.nodes] at hbare
  obtain ⟨node, hcontent, hnode⟩ := eq_singleton_of_bareAll hbare
  obtain ⟨heading, content, whole, rfl, hheading, hinside⟩ := eq_element_of_bare hnode
  obtain ⟨inner, rfl, hinner⟩ := eq_singleton_of_bareAll hinside
  obtain ⟨⟨value, isMultiline, place⟩, rfl, hvalue, hmultiline⟩ := eq_literal_of_bare hinner
  obtain ⟨isHelper, tag, names, attributes⟩ := heading
  cases attributes with
  | none => cases hheading
  | some group =>
      obtain ⟨superCall, settings, list⟩ := group
      cases superCall with
      | some call => cases hheading
      | none =>
          cases hheading
          cases hvalue
          cases hmultiline
          exact ⟨block, list, place, whole, hsource ▸ hparse, hname, hcontent⟩

end Source

end Document

/-! ## Compilation and rendering -/

/-- The pieces of the element in the source. -/
def quotingPieces (value : String) : List Piece :=
  [.text "<p", .text (" title=\"" ++ Html.escape (Text.unescape value) ++ "\""), .text ">",
    .text (Text.unescape value), .text "</p>"]

/-- The element is compiled, whatever the helpers are, and it has these pieces. -/
theorem exists_compile_quoting (helpers : Table Helper) (value : String)
    (list place whole : Span) : ∃ compiled,
    compile helpers none [.element ⟨⟨false, some "p", none,
      some ⟨none, [⟨"title", value⟩], list⟩⟩, some [.literal ⟨value, false, place⟩], whole⟩] =
        .ok compiled ∧ compiled.pieces = .ok (quotingPieces value) := by
  have hheading : unnamedHeading none ⟨false, some "p", none,
      some ⟨none, [⟨"title", value⟩], list⟩⟩ whole.offset =
        .ok ("p", ⟨[⟨"title", value⟩]⟩) := rfl
  refine ⟨.extend none (Renderer.ofElement "p" ⟨[⟨"title", value⟩]⟩ none true
    [.text (Text.unescape value)]).fragments .empty, ?_, rfl⟩
  rw [compile, compileWithin_eq, compileNodes_singleton, compileNode_element,
    compileElement_unnamed rfl rfl, hheading]
  dsimp only [bind, Except.bind]
  rw [compileContent_some, compileNodes_singleton, compileNode_literal]
  rfl

/-- The markup of a paragraph with a text as its title and as its content. -/
theorem writePieces_quotingPieces (stems : List String) (text : String) :
    writePieces stems (quotingPieces (Text.quoted text)) =
      "<p title=\"" ++ Html.escape text ++ "\">" ++ text ++ "</p>" := by
  rw [quotingPieces, Text.unescape_quoted, ← String.toList_inj]
  simp [writePieces, Piece.write, String.join, String.toList_append]

namespace Session

/-- **Quoting.**  Let a text be written as an attribute and as content, with its backslashes,
single quotes and line breaks quoted.  In every session the source is parsed, its template is
made and compiled, and the text comes out as it is in the content and escaped in the attribute.
The escaped text has no angle bracket and no quote, and decoding its entities gives the text. -/
theorem quoted_text_rendered (actions : List Action) {id : String}
    (hid : (Session.initial.run actions).2.template? id = none) (text : String) :
    ∃ block created,
      parse ("#b\np(title='" ++ Text.quoted text ++ "')\x7b'" ++ Text.quoted text ++ "'\x7d") =
          .ok block ∧
        (Session.initial.run actions).2.perform (.create id (.source
            ("#b\np(title='" ++ Text.quoted text ++ "')\x7b'" ++ Text.quoted text ++ "'\x7d"))
          ⟨none, none, none⟩) = (.ok .done, created) ∧
        (created.perform (.compile id)).1 = .ok .done ∧
        (created.perform (.render id)).1 =
          .ok (.markup ("<p title=\"" ++ Html.escape text ++ "\">" ++ text ++ "</p>")) ∧
        (∀ c ∈ ['<', '>', '"', '\''], c ∉ (Html.escape text).toList) ∧
        Html.decodeChars (Html.escape text).toList = text.toList := by
  obtain ⟨block, list, place, whole, hparse, hname, hcontent⟩ := parse_quotingSource text
  have hinherited : (Session.initial.run actions).2.parentStems none = .ok none := rfl
  obtain ⟨created, hcreate, hsound, -, hchain⟩ :=
    (Sound.initial.run actions).exists_made hid hinherited hparse hname
  obtain ⟨compiled, hcompile, hpieces⟩ :=
    exists_compile_quoting created.registry.helpers (Text.quoted text) list place whole
  have hafresh : compileAfresh created.registry.helpers id (created.chain id) = .ok compiled := by
    rw [hchain, hcontent]
    exact (compileAfresh_singleton _ _ _).trans (mapError_eq_ok_iff.2 hcompile)
  refine ⟨block, created, hparse, hcreate, ?_, ?_, ?_, ?_⟩
  · refine (hsound.compileTemplate_fst id).trans ?_
    rw [hafresh]
    rfl
  · refine (hsound.renderTemplate id).1.trans ?_
    rw [renderAfresh_eq_map, piecesAfresh, hafresh]
    show (compiled.pieces.mapError _).map _ = _
    rw [hpieces]
    exact congrArg (fun html => Except.ok (Answer.markup html)) (writePieces_quotingPieces _ text)
  · intro c hc
    rw [Html.escape, String.toList_ofList]
    exact Html.not_mem_escapeChars hc text.toList
  · rw [Html.escape, String.toList_ofList, Html.decodeChars_escapeChars]

/-- Backslashes, quotes, line breaks, a brace and what looks like an entity. -/
def markedText : String := "\\n\\\\'\"\r\n<&lt;\x7d"

theorem markedText_rendered :
    (Session.initial.run [.register "note" .nothing]).2.template? "t" = none ∧
      ∃ block created,
        parse ("#b\np(title='" ++ Text.quoted markedText ++ "')\x7b'" ++ Text.quoted markedText ++
            "'\x7d") = .ok block ∧
          (Session.initial.run [.register "note" .nothing]).2.perform (.create "t" (.source
              ("#b\np(title='" ++ Text.quoted markedText ++ "')\x7b'" ++ Text.quoted markedText ++
                "'\x7d")) ⟨none, none, none⟩) = (.ok .done, created) ∧
          (created.perform (.compile "t")).1 = .ok .done ∧
          (created.perform (.render "t")).1 = .ok (.markup
            ("<p title=\"" ++ Html.escape markedText ++ "\">" ++ markedText ++ "</p>")) ∧
          (∀ c ∈ ['<', '>', '"', '\''], c ∉ (Html.escape markedText).toList) ∧
          Html.decodeChars (Html.escape markedText).toList = markedText.toList :=
  ⟨rfl, quoted_text_rendered [.register "note" .nothing] rfl markedText⟩

end Session

end BemMarkup

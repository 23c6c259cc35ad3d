import BemMarkup.Text.Multiline
import BemMarkup.Document.Cursor
import BemMarkup.Document.ParseError

/-!
# Comments, quoted texts and bare values

The tokens here are the ones that hold free text. Each is a record from which its lexeme
can be computed, and each is read by one function that moves the cursor past that lexeme.

* A *line comment* goes up to a line break, which it does not take. A *block comment*
  goes up to the first closing mark.
* A *quoted text* goes up to the next quote of its own kind. A backslash protects the
  character after it, whatever that is. Only backticks allow a line break in between.
* A *bare value* goes up to a line break, a comma or a closing parenthesis, and is
  trimmed.

Between the tokens of an attribute list stands *filler*: gaps and comments in any order.

## Main statements

* `readComment_consumes`, `readQuoted_consumes`, `readBare_consumes`: a reader moves
  exactly past the lexeme of what it read.
* `skipFiller_consumes`: filler is only moved over.
-/

namespace BemMarkup.Document

open Text

/-- The first character of a text as the message of an error shows it; empty at the end
of the source. -/
def found (cs : List Char) : String := String.ofList (cs.take 1)

/-! ## Comments -/

/-- A comment as it is read. -/
structure CommentToken where
  /-- The text between the marks. -/
  body : List Char
  /-- Whether the comment has a closing mark. -/
  isMultiline : Bool
deriving DecidableEq, Repr

/-- The text of a comment, its marks included. -/
def CommentToken.lexeme (token : CommentToken) : List Char :=
  if token.isMultiline then '/' :: '*' :: (token.body ++ ['*', '/'])
  else '/' :: '/' :: token.body

/-- Whether a comment starts here: a slash directly followed by a slash or a star. -/
def startsComment : List Char → Bool
  | '/' :: '/' :: _ | '/' :: '*' :: _ => true
  | _ => false

/-- The text before the first closing mark of a block comment, if there is one. -/
def beforeClosingMark? : List Char → Option (List Char)
  | [] => none
  | '*' :: '/' :: _ => some []
  | c :: cs => (beforeClosingMark? cs).map (c :: ·)

/-- Reads the comment that starts at the cursor. -/
def readComment (c : Cursor) : Except Fault (CommentToken × Cursor) :=
  match c.rest with
  | '/' :: '/' :: cs =>
    let token : CommentToken := ⟨cs.takeWhile fun d => !isBreak d, false⟩
    .ok (token, c.past token.lexeme)
  | '/' :: '*' :: cs =>
    match beforeClosingMark? cs with
    | some body =>
      let token : CommentToken := ⟨body, true⟩
      .ok (token, c.past token.lexeme)
    | none => .error ⟨c.finish.offset, .unterminatedComment⟩
  | '/' :: cs => .error ⟨(c.past ['/']).offset, .expected "/" (found cs)⟩
  | cs => .error ⟨c.offset, .expected "/" (found cs)⟩

theorem CommentToken.lexeme_ne_nil (token : CommentToken) : token.lexeme ≠ [] := by
  unfold CommentToken.lexeme
  split <;> simp

theorem beforeClosingMark?_append {cs body : List Char} (h : beforeClosingMark? cs = some body) :
    ∃ rest, cs = body ++ '*' :: '/' :: rest := by
  induction cs using beforeClosingMark?.induct generalizing body with
  | case1 => simp [beforeClosingMark?] at h
  | case2 rest =>
    simp only [beforeClosingMark?, Option.some.injEq] at h
    exact ⟨rest, by simp [← h]⟩
  | case3 c cs hne ih =>
    rw [beforeClosingMark?] at h
    · obtain ⟨body', hbody', rfl⟩ := Option.map_eq_some_iff.1 h
      obtain ⟨rest, rfl⟩ := ih hbody'
      exact ⟨rest, by simp⟩
    · exact hne

/-- A comment is read by moving past its lexeme. -/
theorem readComment_consumes {c d : Cursor} {token : CommentToken}
    (h : readComment c = .ok (token, d)) : c.Consumes token.lexeme d := by
  unfold readComment at h
  split at h
  · rename_i cs hrest
    cases h
    refine Cursor.past_consumes ?_
    rw [hrest]
    simpa [CommentToken.lexeme] using List.takeWhile_prefix _
  · rename_i cs hrest
    split at h
    · rename_i body hbody
      cases h
      obtain ⟨rest, rfl⟩ := beforeClosingMark?_append hbody
      exact Cursor.past_consumes_of_rest rest (by simp [hrest, CommentToken.lexeme])
    · cases h
  · cases h
  · cases h

/-! ## Quoted texts -/

/-- A character that opens and closes a quoted text. -/
def isQuote (c : Char) : Bool := c == '\'' || c == '"' || c == '\x60'

/-- A quoted text as it is read. -/
structure QuotedToken where
  /-- The quote. -/
  quote : Char
  /-- The text between the quotes, with its escapes as they are written. -/
  body : List Char
deriving DecidableEq, Repr

/-- The text of a quoted text, its quotes included. -/
def QuotedToken.lexeme (token : QuotedToken) : List Char :=
  token.quote :: (token.body ++ [token.quote])

/-- Whether the text may go over several lines. -/
def QuotedToken.isMultiline (token : QuotedToken) : Bool := token.quote == '\x60'

/-- The value of a quoted text: its body, with the layout folded if it may go over
several lines. -/
def QuotedToken.value (token : QuotedToken) : String :=
  if token.isMultiline then normalize (String.ofList token.body) else String.ofList token.body

/-- Whether a character that no backslash protects ends the body of a quoted text: the
quote itself and, except between backticks, a line break. -/
def endsBody (quote c : Char) : Bool := c == quote || (quote != '\x60' && isBreak c)

/-- The part of a text that belongs to the body of a quoted text: up to the closing quote
or, if there is none, up to where one is missed. -/
def quotedBody (quote : Char) : List Char → List Char
  | [] => []
  | ['\\'] => ['\\']
  | '\\' :: c :: cs => '\\' :: c :: quotedBody quote cs
  | c :: cs => if endsBody quote c then [] else c :: quotedBody quote cs

/-- Reads the quoted text that starts at the cursor with the given quote. -/
def readQuoted (quote : Char) (c : Cursor) : Except Fault (QuotedToken × Cursor) :=
  let token : QuotedToken := ⟨quote, quotedBody quote (c.rest.drop 1)⟩
  let atEnd := c.past (quote :: token.body)
  if atEnd.current? = some quote then .ok (token, c.past token.lexeme)
  else .error ⟨atEnd.offset, .unterminatedString⟩

theorem QuotedToken.lexeme_ne_nil (token : QuotedToken) : token.lexeme ≠ [] := by
  simp [QuotedToken.lexeme]

theorem quotedBody_prefix (quote : Char) (cs : List Char) : quotedBody quote cs <+: cs := by
  fun_induction quotedBody quote cs with
  | case1 => exact List.nil_prefix
  | case2 => exact List.prefix_refl _
  | case3 c cs ih => simpa using ih
  | case4 => exact List.nil_prefix
  | case5 c cs _ _ _ ih => simpa using ih

/-- A quoted text is read by moving past its lexeme. -/
theorem readQuoted_consumes {c d : Cursor} {quote : Char} {cs : List Char} {token : QuotedToken}
    (hrest : c.rest = quote :: cs) (h : readQuoted quote c = .ok (token, d)) :
    c.Consumes token.lexeme d := by
  unfold readQuoted at h
  obtain ⟨rest, hbody⟩ := quotedBody_prefix quote cs
  simp only [hrest, List.drop_one, List.tail_cons] at h
  generalize quotedBody quote cs = body at h hbody
  subst hbody
  split at h
  · rename_i hend
    cases h
    obtain ⟨tail, rfl⟩ : ∃ tail, rest = quote :: tail := by
      simpa [Cursor.current?, hrest, List.head?_eq_some_iff] using hend
    exact Cursor.past_consumes_of_rest tail (by simp [hrest, QuotedToken.lexeme])
  · cases h

/-! ## Bare values -/

/-- A character that an unquoted value may hold. -/
def isBareChar (c : Char) : Bool := !(isBreak c || c == ',' || c == ')')

/-- Reads an unquoted value. -/
def readBare (c : Cursor) : Except Fault (String × Cursor) :=
  let lexeme := c.rest.takeWhile isBareChar
  let next := c.past lexeme
  if next.rest.isEmpty then .error ⟨next.offset, .invalidAttribute⟩
  else .ok (String.ofList (trim lexeme), next)

/-- An unquoted value is read by moving past all characters that it may hold. -/
theorem readBare_consumes {c d : Cursor} {value : String} (h : readBare c = .ok (value, d)) :
    c.Consumes (c.rest.takeWhile isBareChar) d := by
  unfold readBare at h
  dsimp only at h
  split at h
  · cases h
  · cases h
    exact Cursor.past_consumes (List.takeWhile_prefix _)

/-! ## Filler -/

/-- Moves over the gaps and comments at the cursor. -/
def skipFiller (c : Cursor) : Except Fault Cursor :=
  if c.skipGaps.current? = some '/' then
    match _h : readComment c.skipGaps with
    | .error fault => .error fault
    | .ok (_, next) => skipFiller next
  else .ok c.skipGaps
termination_by c.rest.length
decreasing_by
  exact Nat.lt_of_lt_of_le ((readComment_consumes _h).length_lt (CommentToken.lexeme_ne_nil _))
    c.skipGaps_consumes.length_le

theorem skipFiller_of_comment {c : Cursor} (hc : c.skipGaps.current? = some '/') :
    skipFiller c = (readComment c.skipGaps).bind fun r => skipFiller r.2 := by
  rw [skipFiller, if_pos hc]
  split <;> simp_all [Except.bind]

theorem skipFiller_of_no_comment {c : Cursor} (hc : c.skipGaps.current? ≠ some '/') :
    skipFiller c = .ok c.skipGaps := by
  rw [skipFiller, if_neg hc]

/-- Filler is only moved over. -/
theorem skipFiller_consumes {c d : Cursor} (h : skipFiller c = .ok d) :
    ∃ text, c.Consumes text d := by
  induction c using skipFiller.induct with
  | case1 c hc fault hread => simp [skipFiller_of_comment hc, hread, Except.bind] at h
  | case2 c hc token next hread ih =>
    rw [skipFiller_of_comment hc, hread] at h
    obtain ⟨text, htext⟩ := ih h
    exact ⟨_, c.skipGaps_consumes.trans ((readComment_consumes hread).trans htext)⟩
  | case3 c hc =>
    rw [skipFiller_of_no_comment hc] at h
    cases h
    exact ⟨_, c.skipGaps_consumes⟩

end BemMarkup.Document

import Mathlib.Data.List.DropRight
import BemMarkup.Proofs.Document.ViablePrefix

/-!
# Lines and columns of parse errors

The place of a parse error is given as a byte offset, as a line and a column, and by an excerpt
of the source.  All three say the same.  With the source cut at the offset, the line counts the
line feeds before the cut, the column counts the characters between the last of them and the cut,
and the excerpt is the line that the cut goes through.

Line and column are found by going over the text before the cut, character by character, while
the line of the excerpt is found from the start of the source by dropping lines.  `lastLine` is
what both have in common: the part of the line that is before the cut.

## Main definitions

* `lastLine`: what stands behind the last line feed of a text.
* `lineAcross`: the line that a cut of a text goes through.

## Main results

* `Position.after_start`: line and column, counted in the text before a place.
* `eq_of_count_of_length_lastLine`: they determine the place.
* `nthLine_count`: the line of a place is the one that goes across it.
* `parse_error_place`: the three descriptions of the place of a parse error.
-/

namespace BemMarkup.Text

/-! ## The line before a place -/

/-- What stands behind the last line feed of a text. -/
def lastLine (cs : List Char) : List Char := cs.rtakeWhile (· != '\n')

theorem lastLine_append_feed (cs : List Char) : lastLine (cs ++ ['\n']) = [] :=
  List.rtakeWhile_concat_neg _ _ _ (by decide)

theorem lastLine_append_char {c : Char} (h : c ≠ '\n') (cs : List Char) :
    lastLine (cs ++ [c]) = lastLine cs ++ [c] :=
  List.rtakeWhile_concat_pos _ _ _ (by simpa using h)

theorem ne_feed_of_notMem {cs : List Char} (h : '\n' ∉ cs) : ∀ c ∈ cs, (c != '\n') = true :=
  fun _ hc => bne_iff_ne.2 (ne_of_mem_of_not_mem hc h)

theorem lastLine_eq_self {cs : List Char} (h : '\n' ∉ cs) : lastLine cs = cs :=
  List.rtakeWhile_eq_self_iff.2 (ne_feed_of_notMem h)

/-- A text without line feeds goes on with the last line. -/
theorem lastLine_append {front : List Char} (h : '\n' ∉ front) (cs : List Char) :
    lastLine (cs ++ front) = lastLine cs ++ front := by
  induction front using List.reverseRecOn with
  | nil => simp
  | append_singleton front c ih =>
      simp only [List.mem_append, List.mem_singleton, not_or] at h
      rw [← List.append_assoc, lastLine_append_char (Ne.symm h.2), ih h.1, List.append_assoc]

/-- Lines before the last one do not matter. -/
theorem lastLine_feed (line cs : List Char) : lastLine (line ++ '\n' :: cs) = lastLine cs := by
  induction cs using List.reverseRecOn with
  | nil => exact lastLine_append_feed line
  | append_singleton cs c ih =>
      rw [← List.cons_append, ← List.append_assoc]
      by_cases hc : c = '\n'
      · rw [hc, lastLine_append_feed, lastLine_append_feed]
      · rw [lastLine_append_char hc, lastLine_append_char hc, ih]

/-! ## Line and column -/

/-- The line of a place counts the line feeds before it.  Its column counts the characters behind
the last of them. -/
theorem Position.after_start (cs : List Char) :
    Position.start.after cs = ⟨cs.count '\n' + 1, (lastLine cs).length + 1⟩ := by
  induction cs using List.reverseRecOn with
  | nil => rfl
  | append_singleton cs c ih =>
      rw [Position.after_append, ih, Position.after_cons, Position.after_nil, Position.next]
      by_cases hc : c = '\n'
      · rw [if_pos hc, hc, lastLine_append_feed, List.count_append, List.count_singleton_self]
        rfl
      · rw [if_neg hc, lastLine_append_char hc, List.count_append, List.length_append,
          List.count_singleton, if_neg (by simpa using hc)]
        rfl

/-- Of two texts with the same line feeds and last lines of the same length, one does not go on
where the other ends. -/
theorem eq_nil_of_count_of_length_lastLine {cs more : List Char}
    (hcount : (cs ++ more).count '\n' = cs.count '\n')
    (hlength : (lastLine (cs ++ more)).length = (lastLine cs).length) : more = [] := by
  have hfree : '\n' ∉ more := by
    refine List.count_eq_zero.1 ?_
    rw [List.count_append] at hcount
    omega
  rw [lastLine_append hfree, List.length_append] at hlength
  exact List.eq_nil_of_length_eq_zero (by omega)

/-- Line and column determine the place in a text. -/
theorem eq_of_count_of_length_lastLine {before after before' after' : List Char}
    (happend : before' ++ after' = before ++ after)
    (hcount : before'.count '\n' = before.count '\n')
    (hlength : (lastLine before').length = (lastLine before).length) : before' = before := by
  rcases List.append_eq_append_iff.1 happend with ⟨more, rfl, -⟩ | ⟨more, rfl, -⟩
  · rw [eq_nil_of_count_of_length_lastLine hcount.symm hlength.symm, List.append_nil]
  · rw [eq_nil_of_count_of_length_lastLine hcount hlength, List.append_nil]

/-! ## The line across a place -/

/-- The line that goes across the place between two texts: what stands behind the last line feed
before the place, up to the next line feed or the end.  A carriage return directly before that
line feed does not belong to the line. -/
def lineAcross (before after : List Char) : List Char :=
  let line := lastLine before ++ after.takeWhile (· != '\n')
  if '\n' ∈ after ∧ ['\r'] <:+ line then line.rdrop 1 else line

/-- Before a line feed a line loses the carriage return at its end, and nothing else. -/
theorem dropReturn_eq (line : List Char) :
    dropReturn line = if ['\r'] <:+ line then line.rdrop 1 else line := by
  induction line using List.reverseRecOn with
  | nil => rfl
  | append_singleton front c _ =>
      have hlast : ['\r'] <:+ front ++ [c] ↔ c = '\r' := by
        rw [← List.reverse_prefix]
        simp [eq_comm]
      rw [dropReturn, List.getLast?_concat, List.dropLast_concat, List.rdrop_concat_succ,
        List.rdrop_zero]
      simp only [hlast, Option.some.injEq]

theorem takeWhile_of_notMem {line : List Char} (h : '\n' ∉ line) (cs : List Char) :
    (line ++ cs).takeWhile (· != '\n') = line ++ cs.takeWhile (· != '\n') :=
  List.takeWhile_append_of_pos (ne_feed_of_notMem h)

/-- A line is shorter than the text that it is in if a line feed ends it. -/
theorem length_takeWhile_lt_iff (cs : List Char) :
    (cs.takeWhile (· != '\n')).length < cs.length ↔ '\n' ∈ cs := by
  induction cs with
  | nil => simp
  | cons c cs ih =>
      by_cases hc : c = '\n'
      · simp [hc]
      · rw [List.takeWhile_cons_of_pos (by simpa using hc), List.length_cons, List.length_cons,
          Nat.add_lt_add_iff_right, ih, List.mem_cons, or_iff_right (Ne.symm hc)]

theorem nthLine_zero (cs : List Char) : nthLine 0 cs = lineAcross [] cs := by
  cases cs with
  | nil => rfl
  | cons c cs =>
      unfold nthLine lineAcross
      simp only [length_takeWhile_lt_iff, dropReturn_eq, ite_and]
      rfl

theorem nthLine_succ {line : List Char} (h : '\n' ∉ line) (n : Nat) (cs : List Char) :
    nthLine (n + 1) (line ++ '\n' :: cs) = nthLine n cs := by
  have hdrop : (line ++ '\n' :: cs).dropWhile (· != '\n') = '\n' :: cs := by
    rw [List.dropWhile_append_of_pos (ne_feed_of_notMem h)]
    rfl
  rw [nthLine, hdrop, List.drop_one, List.tail_cons]
  simp

/-- As many lines behind the first as there are line feeds before a place, the line goes across
the place. -/
theorem nthLine_count (before after : List Char) :
    nthLine (before.count '\n') (before ++ after) = lineAcross before after := by
  induction hn : before.count '\n' generalizing before with
  | zero =>
      have hfree : '\n' ∉ before := List.count_eq_zero.1 hn
      rw [nthLine_zero, lineAcross, lineAcross, takeWhile_of_notMem hfree, lastLine_eq_self hfree,
        lastLine_eq_self List.not_mem_nil, List.nil_append]
      simp only [List.mem_append, hfree, false_or]
  | succ n ih =>
      have hfeed : '\n' ∈ before := List.count_pos_iff.1 (by omega)
      obtain ⟨line, rest, rfl, hfree⟩ := List.eq_append_cons_of_mem hfeed
      rw [List.count_append, List.count_eq_zero.2 hfree, List.count_cons_self] at hn
      rw [List.append_assoc, List.cons_append, nthLine_succ hfree, ih rest (by omega), lineAcross,
        lineAcross, lastLine_feed]

end BemMarkup.Text

namespace BemMarkup.Document

open Text

/-! ## Parse errors -/

section Errors

variable {source : String} {error : ParseError}

/-- A parse error is between two characters of its source. -/
theorem exists_place_of_parse (h : parse source = .error error) :
    error.source = source ∧ error.position = .ofOffset source.toList error.offset ∧
      ∃ before after, source.toList = before ++ after ∧ error.offset = byteLength before := by
  obtain ⟨fault, hblock, rfl⟩ := mapError_eq_error_iff.1 h
  obtain ⟨text, -, -, hbehind, -⟩ := readBlock_mended hblock
  obtain ⟨rest, hrest⟩ := hbehind.stands
  exact ⟨rfl, rfl, text, rest, hrest.symm, hbehind.offset_eq.trans (Nat.zero_add _)⟩

/-- **Places of parse errors.**  A parse error is between two characters of its source.  Its line
counts the line feeds before it, and its column the characters behind the last of them, and no
other place has both.  The snippet is the line that goes across the place, and below it a mark
under the column. -/
theorem parse_error_place (h : parse source = .error error) :
    error.source = source ∧ ∃ before after, source = before ++ after ∧
      error.offset = before.utf8ByteSize ∧
      error.position.line = before.toList.count '\n' + 1 ∧
      error.position.column = (lastLine before.toList).length + 1 ∧
      (∀ front rest, source = front ++ rest →
        error.position.line = front.toList.count '\n' + 1 →
          error.position.column = (lastLine front.toList).length + 1 → front = before) ∧
      error.snippet = String.ofList (lineAcross before.toList after.toList ++
        '\n' :: List.replicate (error.position.column - 1) ' ' ++ ['^']) := by
  obtain ⟨rfl, hposition, before, after, hsource, hoffset⟩ := exists_place_of_parse h
  rw [Position.ofOffset, hoffset, hsource, takeBytes_append, Position.after_start] at hposition
  refine ⟨rfl, String.ofList before, String.ofList after, ?_, ?_, ?_, ?_, ?_, ?_⟩
  · rw [← String.ofList_append, ← hsource, String.ofList_toList]
  · rw [utf8ByteSize_ofList, hoffset]
  · rw [hposition, String.toList_ofList]
  · rw [hposition, String.toList_ofList]
  · intro front rest hsplit hline hcolumn
    rw [hsplit, String.toList_append] at hsource
    rw [hposition] at hline hcolumn
    refine String.toList_inj.1 ?_
    rw [String.toList_ofList]
    exact eq_of_count_of_length_lastLine hsource (Nat.add_right_cancel hline).symm
      (Nat.add_right_cancel hcolumn).symm
  · rw [ParseError.snippet, excerpt, hposition, hsource, Nat.add_sub_cancel, nthLine_count,
      String.toList_ofList, String.toList_ofList]

/-- A bracket in a line of characters of several bytes, between two carriage returns. -/
theorem bracket_place :
    ∃ error, parse "#b\r\n'é€' ]\r\nx" = .error error ∧ error.offset = 12 ∧
      error.position = ⟨2, 6⟩ ∧ error.snippet = "'é€' ]\n     ^" ∧
      error.source = "#b\r\n'é€' ]\r\nx" ∧ ∃ before after,
        "#b\r\n'é€' ]\r\nx" = before ++ after ∧ error.offset = before.utf8ByteSize ∧
        error.position.line = before.toList.count '\n' + 1 ∧
        error.position.column = (lastLine before.toList).length + 1 ∧
        (∀ front rest, "#b\r\n'é€' ]\r\nx" = front ++ rest →
          error.position.line = front.toList.count '\n' + 1 →
            error.position.column = (lastLine front.toList).length + 1 → front = before) ∧
        error.snippet = String.ofList (lineAcross before.toList after.toList ++
          '\n' :: List.replicate (error.position.column - 1) ' ' ++ ['^']) := by
  have hread : (match parse "#b\r\n'é€' ]\r\nx" with
      | .error error => some (error.offset, error.position, error.snippet)
      | .ok _ => none) = some (12, ⟨2, 6⟩, "'é€' ]\n     ^") := by decide +kernel
  cases hparse : parse "#b\r\n'é€' ]\r\nx" with
  | ok block => simp [hparse] at hread
  | error error =>
      rw [hparse] at hread
      obtain ⟨hoffset, hposition, hsnippet⟩ := by simpa using hread
      exact ⟨error, rfl, hoffset, hposition, hsnippet, parse_error_place hparse⟩

end Errors

end BemMarkup.Document

import Mathlib.Data.List.DropRight
import BemMarkup.Proofs.Text.Folding

/-!
# Folding line by line

Whoever writes a text over several lines thinks of its lines.  What is stored of it are these
lines, each without the white space around it, and without the lines that were white altogether.

The code knows nothing of lines.  It goes over the runs of white space, and whether a run is
folded depends on the characters in it.  The two meet at a line break: all white space around it
is one run, and this run becomes the line feed between the line before it and the rest
(`normalizeChars_break`).

## Main definitions

* `joinedLines`: the lines of a text, trimmed and joined.

## Main results

* `normalizeChars_of_breakless`, `normalizeChars_break`: a text that is one line, and a text that
  has a first line.
* `normalizeChars_eq_joinedLines`: the stored form of a text is told by its lines.
-/

namespace BemMarkup.Text

/-! ## Lines -/

/-- The lines of a text, each without the white space around it, and joined by line feeds.  Lines
with nothing but white space are left out. -/
def joinedLines (cs : List Char) : List Char :=
  ['\n'].intercalate <|
    ((cs.splitOnP fun c => c == '\r' || c == '\n').map fun line =>
      (line.dropWhile isWhite).rdropWhile isWhite).filter (!·.isEmpty)

/-- Two lines, or the one of them that is not empty. -/
def joinLine (line rest : List Char) : List Char :=
  if line = [] then rest else if rest = [] then line else line ++ '\n' :: rest

section Lines

variable {line cs : List Char} {c : Char}

theorem joinedLines_eq (cs : List Char) : joinedLines cs =
    ['\n'].intercalate (((cs.splitOnP isBreak).map trim).filter (!·.isEmpty)) := rfl

theorem intercalate_filter_cons (line : List Char) (lines : List (List Char)) :
    ['\n'].intercalate ((line :: lines).filter (!·.isEmpty)) =
      joinLine line (['\n'].intercalate (lines.filter (!·.isEmpty))) := by
  cases line with
  | nil => rfl
  | cons c line =>
      rw [List.filter_cons_of_pos (by rfl), joinLine, if_neg (List.cons_ne_nil c line)]
      cases hlines : lines.filter (!·.isEmpty) with
      | nil => simp
      | cons next later =>
          have hnext : next ≠ [] := by
            have hmem : next ∈ lines.filter (!·.isEmpty) := by simp [hlines]
            simpa using (List.mem_filter.1 hmem).2
          rw [List.intercalate_cons_cons, if_neg, List.append_assoc, List.singleton_append]
          cases later <;> simp [hnext]

/-- A text without line breaks is one line. -/
theorem joinedLines_of_breakless (h : ∀ c ∈ line, isBreak c = false) :
    joinedLines line = trim line := by
  rw [joinedLines_eq, List.splitOnP_eq_singleton h, List.map_singleton, intercalate_filter_cons,
    joinLine]
  split
  · rename_i hnil
    exact hnil.symm
  · rfl

/-- A line break ends the first line. -/
theorem joinedLines_break (h : ∀ c ∈ line, isBreak c = false) (hbreak : isBreak c = true)
    (cs : List Char) :
    joinedLines (line ++ c :: cs) = joinLine (trim line) (joinedLines cs) := by
  rw [joinedLines_eq, joinedLines_eq, List.splitOnP_append_cons _ _ hbreak,
    List.splitOnP_eq_singleton h, List.singleton_append, List.map_cons, intercalate_filter_cons]

end Lines

/-! ## Trimming around a line break -/

section Trimming

variable {cs cs' : List Char} {c : Char}

/-- A mark protects all that is before it when the end is trimmed. -/
theorem trimEnd_append_cons (front cs : List Char) (h : isWhite c = false) :
    trimEnd (front ++ c :: cs) = front ++ trimEnd (c :: cs) := by
  unfold trimEnd
  rw [List.reverse_append, List.reverse_cons, List.dropWhile_append, if_neg (by simp [h]),
    List.reverse_append, List.reverse_reverse]

/-- A text that ends in a mark is trimmed at its start, and that does not depend on what is
behind it. -/
theorem exists_trim_concat (front : List Char) (h : isWhite c = false) :
    ∃ front', trim (front ++ [c]) = front' ++ [c] ∧
      ∀ back, (front ++ [c] ++ back).dropWhile isWhite = front' ++ [c] ++ back := by
  obtain ⟨front', hstart⟩ : ∃ front', (front ++ [c]).dropWhile isWhite = front' ++ [c] := by
    rw [List.dropWhile_append]
    split
    · exact ⟨[], by simp [h]⟩
    · exact ⟨_, rfl⟩
  refine ⟨front', ?_, fun back => ?_⟩
  · rw [trim, hstart, trimEnd_append_of_not_white front' h]
  · rw [List.dropWhile_append, hstart, if_neg (by simp)]

/-- What has a mark is not trimmed away. -/
theorem trimEnd_cons_ne_nil (h : isWhite c = false) (cs : List Char) : trimEnd (c :: cs) ≠ [] := by
  intro hnil
  obtain ⟨white, hsplit, hwhite⟩ := exists_white_of_trimEnd (c :: cs)
  rw [hnil, List.nil_append] at hsplit
  rw [← hsplit] at hwhite
  rw [hwhite c List.mem_cons_self] at h
  cases h

/-- The line break between two trimmed texts stays, unless one of them is empty. -/
theorem trim_break (hfront : cs = [] ∨ ∃ front c, cs = front ++ [c] ∧ isWhite c = false)
    (hback : cs' = [] ∨ ∃ c back, cs' = c :: back ∧ isWhite c = false) :
    trim (cs ++ '\n' :: cs') = joinLine (trim cs) (trim cs') := by
  have hfeed : ∀ c ∈ ['\n'], isWhite c = true := List.forall_mem_singleton.2 (by decide)
  rcases hfront with rfl | ⟨front, c, rfl, hc⟩
  · rw [List.nil_append, trim, List.dropWhile_cons_of_pos (by decide)]
    rfl
  · obtain ⟨front', hline, hstart⟩ := exists_trim_concat front hc
    have hne : front' ++ [c] ≠ [] := by simp
    rw [hline, joinLine, if_neg hne, trim, hstart]
    rcases hback with rfl | ⟨d, back, rfl, hd⟩
    · rw [trimEnd_append_white _ hfeed, trimEnd_append_of_not_white front' hc, trim_nil, if_pos rfl]
    · have hrest : trim (d :: back) = trimEnd (d :: back) := by
        rw [trim, List.dropWhile_cons_of_neg (by simp [hd])]
      rw [hrest, if_neg (trimEnd_cons_ne_nil hd back), List.append_cons,
        trimEnd_append_cons _ back hd, List.append_assoc, List.singleton_append]

theorem trim_dropWhile (cs : List Char) : trim (cs.dropWhile isWhite) = trim cs := by
  rw [trim, List.dropWhile_idempotent, trim]

theorem trim_trimEnd (cs : List Char) : trim (trimEnd cs) = trim cs := by
  obtain ⟨white, hsplit, hwhite⟩ := exists_white_of_trimEnd cs
  rcases trimEnd_cases cs with hnil | ⟨front, c, hmark, hc⟩
  · rw [hnil, List.nil_append] at hsplit
    rw [hnil, hsplit, trim, trim, List.dropWhile_eq_nil_iff.2 hwhite]
    rfl
  · obtain ⟨front', hline, hstart⟩ := exists_trim_concat front hc
    rw [hmark] at hsplit ⊢
    rw [hline, hsplit, trim, hstart, trimEnd_append_white _ hwhite,
      trimEnd_append_of_not_white front' hc]

end Trimming

/-! ## Folding around a line break -/

section Folding

variable {run line cs : List Char} {c : Char}

/-- What is behind a mark is folded by itself. -/
theorem foldRuns_append_mark (run front cs : List Char) (h : isWhite c = false) :
    foldRuns run (front ++ c :: cs) = foldRuns run (front ++ [c]) ++ foldRuns [] cs := by
  induction front generalizing run with
  | nil =>
      rw [List.nil_append, List.nil_append, foldRuns_cons_of_not_white run cs h,
        foldRuns_cons_of_not_white run [] h]
      simp
  | cons d front ih =>
      cases hd : isWhite d with
      | true =>
          rw [List.cons_append, List.cons_append, foldRuns_cons_of_white run _ hd,
            foldRuns_cons_of_white run _ hd, ih]
      | false =>
          rw [List.cons_append, List.cons_append, foldRuns_cons_of_not_white run _ hd,
            foldRuns_cons_of_not_white run _ hd, ih, List.append_assoc, List.cons_append]

/-- Nothing is folded in one line. -/
theorem foldRuns_of_breakless (hrun : ∀ c ∈ run, isBreak c = false)
    (h : ∀ c ∈ line, isBreak c = false) : foldRuns run line = run ++ line := by
  have hfold : ∀ {run : List Char}, (∀ c ∈ run, isBreak c = false) → foldRun run = run :=
    fun hrun => if_neg (by simpa using hrun)
  induction line generalizing run with
  | nil => rw [foldRuns_nil, hfold hrun, List.append_nil]
  | cons c line ih =>
      obtain ⟨hc, hline⟩ := List.forall_mem_cons.1 h
      cases hwhite : isWhite c with
      | true =>
          have hmore : ∀ d ∈ run ++ [c], isBreak d = false :=
            List.forall_mem_append.2 ⟨hrun, List.forall_mem_singleton.2 hc⟩
          rw [foldRuns_cons_of_white run line hwhite, ih hmore hline, List.append_assoc,
            List.singleton_append]
      | false =>
          rw [foldRuns_cons_of_not_white run line hwhite, hfold hrun, ih (by simp) hline,
            List.nil_append]

/-- A run with a line break becomes one line feed, with all the white space that follows. -/
theorem foldRuns_of_break (hrun : run.any isBreak = true) (cs : List Char) :
    foldRuns run cs = '\n' :: foldRuns [] (cs.dropWhile isWhite) := by
  induction cs generalizing run with
  | nil =>
      rw [foldRuns_nil, foldRun, if_pos hrun]
      rfl
  | cons c cs ih =>
      cases hc : isWhite c with
      | true =>
          have hmore : (run ++ [c]).any isBreak = true := by
            rw [List.any_append, hrun, Bool.true_or]
          rw [foldRuns_cons_of_white run cs hc, ih hmore, List.dropWhile_cons_of_pos hc]
      | false =>
          rw [List.dropWhile_cons_of_neg (by simp [hc]), foldRuns_cons_of_not_white run cs hc,
            foldRuns_cons_of_not_white [] cs hc, foldRun, if_pos hrun, foldRun_nil,
            List.singleton_append, List.nil_append]

/-- A line break takes the white space around it along, on both of its sides. -/
theorem foldRuns_break (h : ∀ c ∈ line, isBreak c = false) (hbreak : isBreak c = true)
    (cs : List Char) :
    foldRuns [] (line ++ c :: cs) =
      trimEnd line ++ '\n' :: foldRuns [] (cs.dropWhile isWhite) := by
  obtain ⟨white, hline, hwhite⟩ := exists_white_of_trimEnd line
  have hany : (white ++ [c]).any isBreak = true := by simp [hbreak]
  have hrun : ∀ d ∈ white ++ [c], isWhite d = true :=
    List.forall_mem_append.2 ⟨hwhite, List.forall_mem_singleton.2 (isWhite_of_isBreak hbreak)⟩
  have hfold : foldRuns [] (white ++ c :: cs) = '\n' :: foldRuns [] (cs.dropWhile isWhite) := by
    rw [List.append_cons, foldRuns_append _ _ _ hrun, List.nil_append, foldRuns_of_break hany]
  rcases trimEnd_cases line with hnil | ⟨front, d, hmark, hd⟩
  · rw [hnil, List.nil_append] at hline
    rw [hnil, hline, hfold, List.nil_append]
  · have hfree : ∀ c ∈ front ++ [d], isBreak c = false := by
      intro e he
      refine h e ?_
      rw [hline, hmark]
      exact List.mem_append_left _ he
    rw [hmark] at hline ⊢
    rw [hline, List.append_assoc, List.append_assoc, List.singleton_append,
      foldRuns_append_mark _ _ _ hd, hfold, foldRuns_of_breakless (by simp) hfree, List.nil_append,
      List.append_assoc, List.singleton_append]

end Folding

/-! ## The stored form -/

section Stored

variable {line : List Char} {c : Char}

/-- A text that is one line is stored trimmed. -/
theorem normalizeChars_of_breakless (h : ∀ c ∈ line, isBreak c = false) :
    normalizeChars line = trim line := by
  rw [normalizeChars_eq_trim, foldRuns_of_breakless (by simp) h, List.nil_append]

theorem foldRuns_dropWhile_cases (cs : List Char) :
    foldRuns [] (cs.dropWhile isWhite) = [] ∨
      ∃ c back, foldRuns [] (cs.dropWhile isWhite) = c :: back ∧ isWhite c = false := by
  rcases dropWhile_cases cs with hnil | ⟨c, rest, hmark, hc⟩
  · exact .inl (by rw [hnil]; rfl)
  · refine .inr ⟨c, foldRuns [] rest, ?_, hc⟩
    rw [hmark, foldRuns_cons_of_not_white [] rest hc, foldRun_nil, List.nil_append]

/-- A line break is stored as one line feed between the line before it and the rest. -/
theorem normalizeChars_break (h : ∀ c ∈ line, isBreak c = false) (hbreak : isBreak c = true)
    (cs : List Char) :
    normalizeChars (line ++ c :: cs) = joinLine (trim line) (normalizeChars cs) := by
  have hrest : normalizeChars cs = trim (foldRuns [] (cs.dropWhile isWhite)) := by
    rw [← normalizeChars_eq_trim, normalizeChars, normalizeChars, trim_dropWhile]
  rw [normalizeChars_eq_trim, foldRuns_break h hbreak,
    trim_break (trimEnd_cases line) (foldRuns_dropWhile_cases cs), trim_trimEnd, hrest]

/-- The characters before the first line break are collected in the line. -/
theorem normalizeChars_append (h : ∀ c ∈ line, isBreak c = false) (cs : List Char) :
    normalizeChars (line ++ cs) = joinedLines (line ++ cs) := by
  induction cs generalizing line with
  | nil => rw [List.append_nil, normalizeChars_of_breakless h, joinedLines_of_breakless h]
  | cons c cs ih =>
      cases hbreak : isBreak c with
      | true =>
          have hrest : normalizeChars ([] ++ cs) = joinedLines ([] ++ cs) := ih (by simp)
          rw [List.nil_append] at hrest
          rw [normalizeChars_break h hbreak, joinedLines_break h hbreak, hrest]
      | false =>
          rw [List.append_cons]
          exact ih (List.forall_mem_append.2 ⟨h, List.forall_mem_singleton.2 hbreak⟩)

/-- **Folding line by line.**  A text is stored as its lines, each without the white space around
it and without the ones that were white. -/
theorem normalizeChars_eq_joinedLines (cs : List Char) : normalizeChars cs = joinedLines cs := by
  have hnil : ∀ c ∈ ([] : List Char), isBreak c = false := by simp
  exact normalizeChars_append hnil cs

/-- A line that is white leaves no trace, and a no-break space stays in the middle of a line. -/
example : joinedLines "a \r\n\u00a0\r b\u00a0c ".toList = "a\nb\u00a0c".toList := by decide

end Stored

end BemMarkup.Text

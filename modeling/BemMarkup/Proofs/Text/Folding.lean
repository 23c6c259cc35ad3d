import BemMarkup.Text.Multiline

/-!
# Folding as a canonical form

A text is taken apart into its *marks*, the characters other than white space, and its runs of
white space: one before the first mark, one behind the last, and one between any two.  Marks and
runs together determine the text (`eq_of_marks_of_whiteRuns`).

Folding the layout of a text is told by what it does to them.  The marks stay.  The runs at both
ends become empty, and a run between two marks becomes one line feed if it holds a line break, and
stays otherwise.  Nothing more needs to be known of the folded text: it is the only one with these
marks and runs, and its properties are properties of lists of runs.

In the code the text is trimmed first and folded then.  Here both are functions on runs that do
not interfere, `bareEnds` and `map foldRun`, so they can be looked at apart.

## Main definitions

* `marks`, `whiteRuns`: the parts of a text.
* `canonicalRuns`: the runs of the canonical form.
* `SameLines`: texts that differ in how their line breaks are written.

## Main results

* `whiteRuns_foldRuns`, `whiteRuns_trim`: folding and trimming on runs.
* `foldRuns_eq_of_sameLines`: folding does not see how line breaks are written.
* `normalize_canonical`: the stored form of a text is its canonical form.
-/

namespace BemMarkup.Text

/-! ## Marks and runs -/

/-- The characters of a text other than white space. -/
def marks (cs : List Char) : List Char := cs.filter fun c => !isWhite c

/-- The runs of white space in a text, some of them empty: before its first other character,
between any two that follow each other, and behind the last one. -/
def whiteRuns (cs : List Char) : List (List Char) := cs.splitOnP fun c => !isWhite c

section Parts

variable {cs cs' white : List Char} {c : Char}

/-- A text is determined by its marks and its runs. -/
theorem eq_of_marks_of_whiteRuns (hmarks : marks cs = marks cs')
    (hruns : whiteRuns cs = whiteRuns cs') : cs = cs' := by
  unfold marks at hmarks
  unfold whiteRuns at hruns
  rw [← List.splitOnP_spec (p := fun c => !isWhite c) cs,
    ← List.splitOnP_spec (p := fun c => !isWhite c) cs', hmarks, hruns]

theorem whiteRuns_ne_nil (cs : List Char) : whiteRuns cs ≠ [] := List.splitOnP_ne_nil _ cs

/-- White space alone is one run. -/
theorem whiteRuns_of_white (h : ∀ c ∈ white, isWhite c = true) : whiteRuns white = [white] := by
  apply List.splitOnP_eq_singleton
  intro c hc
  rw [h c hc, Bool.not_true]

/-- A mark separates the runs before it from those behind it. -/
theorem whiteRuns_append_cons (cs cs' : List Char) (h : isWhite c = false) :
    whiteRuns (cs ++ c :: cs') = whiteRuns cs ++ whiteRuns cs' := by
  apply List.splitOnP_append_cons
  rw [h, Bool.not_false]

theorem whiteRuns_white_append_cons (hwhite : ∀ c ∈ white, isWhite c = true)
    (h : isWhite c = false) : whiteRuns (white ++ c :: cs) = white :: whiteRuns cs := by
  rw [whiteRuns_append_cons white cs h, whiteRuns_of_white hwhite, List.singleton_append]

theorem whiteRuns_cons (h : isWhite c = false) : whiteRuns (c :: cs) = [] :: whiteRuns cs :=
  whiteRuns_append_cons [] cs h

@[simp] theorem marks_append (cs cs' : List Char) : marks (cs ++ cs') = marks cs ++ marks cs' :=
  List.filter_append cs cs'

theorem marks_of_white (h : ∀ c ∈ white, isWhite c = true) : marks white = [] := by
  unfold marks
  rw [List.filter_eq_nil_iff]
  intro c hc
  simp [h c hc]

theorem marks_cons (cs : List Char) (h : isWhite c = false) : marks (c :: cs) = c :: marks cs := by
  unfold marks
  rw [List.filter_cons_of_pos (by simp [h])]

end Parts

/-! ## Folding -/

section Folding

variable {run cs : List Char}

/-- A run of white space stays white when it is folded. -/
theorem white_foldRun (h : ∀ c ∈ run, isWhite c = true) : ∀ c ∈ foldRun run, isWhite c = true := by
  unfold foldRun
  split
  · exact List.forall_mem_singleton.2 (by decide)
  · exact h

/-- Folding twice is folding once. -/
theorem foldRun_foldRun (run : List Char) : foldRun (foldRun run) = foldRun run := by
  by_cases h : run.any isBreak = true
  · have hfold : foldRun run = ['\n'] := if_pos h
    rw [hfold]
    rfl
  · have hfold : foldRun run = run := if_neg h
    rw [hfold, hfold]

/-- Every run is folded by itself. -/
theorem whiteRuns_foldRuns (h : ∀ c ∈ run, isWhite c = true) :
    whiteRuns (foldRuns run cs) = (whiteRuns (run ++ cs)).map foldRun := by
  induction cs generalizing run with
  | nil =>
      rw [foldRuns_nil, List.append_nil, whiteRuns_of_white h, whiteRuns_of_white (white_foldRun h),
        List.map_singleton]
  | cons c cs ih =>
      cases hc : isWhite c with
      | true =>
          have hrun : ∀ d ∈ run ++ [c], isWhite d = true :=
            List.forall_mem_append.2 ⟨h, List.forall_mem_singleton.2 hc⟩
          rw [foldRuns_cons_of_white run cs hc, ih hrun, List.append_assoc, List.singleton_append]
      | false =>
          rw [foldRuns_cons_of_not_white run cs hc, whiteRuns_white_append_cons h hc,
            whiteRuns_white_append_cons (white_foldRun h) hc, ih (by simp), List.nil_append,
            List.map_cons]

theorem marks_foldRuns (h : ∀ c ∈ run, isWhite c = true) : marks (foldRuns run cs) = marks cs := by
  induction cs generalizing run with
  | nil => rw [foldRuns_nil, marks_of_white (white_foldRun h), marks_of_white (by simp)]
  | cons c cs ih =>
      cases hc : isWhite c with
      | true =>
          have hwhite : ∀ d ∈ [c], isWhite d = true := List.forall_mem_singleton.2 hc
          have hrun : ∀ d ∈ run ++ [c], isWhite d = true := List.forall_mem_append.2 ⟨h, hwhite⟩
          rw [foldRuns_cons_of_white run cs hc, ih hrun, ← List.singleton_append, marks_append,
            marks_of_white hwhite, List.nil_append]
      | false =>
          rw [foldRuns_cons_of_not_white run cs hc, marks_append, marks_of_white (white_foldRun h),
            List.nil_append, marks_cons _ hc, marks_cons _ hc, ih (by simp)]

end Folding

/-! ## Trimming -/

/-- The runs with empty ones in place of the first and the last. -/
def bareEnds (runs : List (List Char)) : List (List Char) := ([] :: runs.tail).dropLast ++ [[]]

section Trimming

variable {cs : List Char}

theorem bareEnds_bareEnds (runs : List (List Char)) : bareEnds (bareEnds runs) = bareEnds runs := by
  unfold bareEnds
  cases runs.tail with
  | nil => rfl
  | cons run rest =>
      rw [List.dropLast_cons_of_ne_nil (List.cons_ne_nil run rest), List.cons_append, List.tail_cons,
        ← List.cons_append, List.dropLast_concat]

theorem map_foldRun_bareEnds (runs : List (List Char)) :
    (bareEnds runs).map foldRun = bareEnds (runs.map foldRun) := by
  unfold bareEnds
  simp only [List.map_append, List.map_dropLast, List.map_cons, List.map_tail, foldRun_nil,
    List.map_nil]

theorem white_takeWhile (cs : List Char) : ∀ c ∈ cs.takeWhile isWhite, isWhite c = true :=
  fun c hc => List.all_eq_true.1 List.all_takeWhile c hc

/-- What is left behind the white space at the start is empty or starts with a mark. -/
theorem dropWhile_cases (cs : List Char) :
    cs.dropWhile isWhite = [] ∨ ∃ c rest, cs.dropWhile isWhite = c :: rest ∧ isWhite c = false := by
  cases h : cs.dropWhile isWhite with
  | nil => exact .inl rfl
  | cons c rest =>
      have hne : cs.dropWhile isWhite ≠ [] := by simp [h]
      have hc := List.head_dropWhile_not isWhite hne
      simp only [h, List.head_cons] at hc
      exact .inr ⟨c, rest, rfl, hc⟩

/-- What is left before the white space at the end is empty or ends with a mark. -/
theorem trimEnd_cases (cs : List Char) :
    trimEnd cs = [] ∨ ∃ front c, trimEnd cs = front ++ [c] ∧ isWhite c = false := by
  unfold trimEnd
  rcases dropWhile_cases cs.reverse with h | ⟨c, rest, h, hc⟩
  · exact .inl (by rw [h, List.reverse_nil])
  · exact .inr ⟨rest.reverse, c, by rw [h, List.reverse_cons], hc⟩

theorem whiteRuns_nil : whiteRuns [] = [[]] := rfl

/-- Without the white space at its start a text has an empty run there. -/
theorem whiteRuns_dropWhile (cs : List Char) :
    whiteRuns (cs.dropWhile isWhite) = [] :: (whiteRuns cs).tail := by
  have hsplit := List.takeWhile_append_dropWhile (p := isWhite) (l := cs)
  rcases dropWhile_cases cs with h | ⟨c, rest, h, hc⟩
  · rw [h, List.append_nil] at hsplit
    rw [h, ← hsplit, whiteRuns_of_white (white_takeWhile cs), whiteRuns_nil, List.tail_cons]
  · have hruns : whiteRuns (cs.takeWhile isWhite ++ c :: rest) =
        cs.takeWhile isWhite :: whiteRuns rest :=
      whiteRuns_white_append_cons (white_takeWhile cs) hc
    rw [← h, hsplit] at hruns
    rw [hruns, List.tail_cons, h, whiteRuns_cons hc]

/-- Without the white space at its end a text has an empty run there. -/
theorem whiteRuns_trimEnd (cs : List Char) :
    whiteRuns (trimEnd cs) = (whiteRuns cs).dropLast ++ [[]] := by
  obtain ⟨white, hsplit, hwhite⟩ := exists_white_of_trimEnd cs
  rcases trimEnd_cases cs with h | ⟨front, c, h, hc⟩
  · rw [h, List.nil_append] at hsplit
    rw [h, hsplit, whiteRuns_of_white hwhite, whiteRuns_nil, List.dropLast_singleton, List.nil_append]
  · have hruns : whiteRuns cs = whiteRuns front ++ [white] := by
      rw [hsplit, h, List.append_assoc, List.singleton_append, whiteRuns_append_cons _ _ hc,
        whiteRuns_of_white hwhite]
    rw [hruns, List.dropLast_concat, h, whiteRuns_append_cons _ _ hc, whiteRuns_nil]

theorem whiteRuns_trim (cs : List Char) : whiteRuns (trim cs) = bareEnds (whiteRuns cs) := by
  rw [trim, whiteRuns_trimEnd, whiteRuns_dropWhile, bareEnds]

theorem marks_trim (cs : List Char) : marks (trim cs) = marks cs := by
  obtain ⟨white, hsplit, hwhite⟩ := exists_white_of_trimEnd (cs.dropWhile isWhite)
  have hstart := List.takeWhile_append_dropWhile (p := isWhite) (l := cs)
  calc marks (trim cs)
    _ = marks (trim cs ++ white) := by rw [marks_append, marks_of_white hwhite, List.append_nil]
    _ = marks (cs.dropWhile isWhite) := by rw [trim, ← hsplit]
    _ = marks (cs.takeWhile isWhite ++ cs.dropWhile isWhite) := by
      rw [marks_append, marks_of_white (white_takeWhile cs), List.nil_append]
    _ = marks cs := by rw [hstart]

/-- A text is trimmed exactly if its runs at both ends are empty. -/
theorem trim_eq_self_iff : trim cs = cs ↔ bareEnds (whiteRuns cs) = whiteRuns cs := by
  constructor
  · intro h
    rw [← whiteRuns_trim, h]
  · intro h
    exact eq_of_marks_of_whiteRuns (marks_trim cs) (by rw [whiteRuns_trim, h])

end Trimming

/-! ## The stored form -/

section Stored

variable {cs : List Char}

theorem marks_normalizeChars (cs : List Char) : marks (normalizeChars cs) = marks cs := by
  rw [normalizeChars, marks_foldRuns (by simp), marks_trim]

theorem whiteRuns_normalizeChars (cs : List Char) :
    whiteRuns (normalizeChars cs) = bareEnds ((whiteRuns cs).map foldRun) := by
  rw [normalizeChars, whiteRuns_foldRuns (by simp), List.nil_append, whiteRuns_trim,
    map_foldRun_bareEnds]

/-- A text that is stored is not changed again. -/
theorem normalizeChars_normalizeChars (cs : List Char) :
    normalizeChars (normalizeChars cs) = normalizeChars cs := by
  apply eq_of_marks_of_whiteRuns
  · exact marks_normalizeChars (normalizeChars cs)
  · have hfold : foldRun ∘ foldRun = foldRun := funext foldRun_foldRun
    rw [whiteRuns_normalizeChars, whiteRuns_normalizeChars, map_foldRun_bareEnds, List.map_map,
      hfold, bareEnds_bareEnds]

/-- A text is stored as it is exactly if it is trimmed and all its runs are folded. -/
theorem normalizeChars_eq_self_iff :
    normalizeChars cs = cs ↔ trim cs = cs ∧ ∀ run ∈ whiteRuns cs, foldRun run = run := by
  constructor
  · intro h
    have hruns := whiteRuns_normalizeChars cs
    rw [h] at hruns
    constructor
    · rw [trim_eq_self_iff, hruns, bareEnds_bareEnds]
    · have hfolded : (whiteRuns cs).map foldRun = whiteRuns cs := by
        have hfold : foldRun ∘ foldRun = foldRun := funext foldRun_foldRun
        rw [hruns, map_foldRun_bareEnds, List.map_map, hfold]
      exact List.map_inj_left.1 (hfolded.trans (List.map_id' _).symm)
  · rintro ⟨htrim, hfolded⟩
    apply eq_of_marks_of_whiteRuns (marks_normalizeChars cs)
    rw [whiteRuns_normalizeChars, List.map_congr_left hfolded, List.map_id', ← trim_eq_self_iff.1 htrim,
      bareEnds_bareEnds]

end Stored

/-! ## The canonical form -/

/-- What becomes of the runs of a text: nothing is left at both ends, and between two marks there
is one line feed in place of a run with a line break. -/
def canonicalRuns (runs : List (List Char)) : List (List Char) :=
  runs.mapIdx fun i run =>
    if i = 0 ∨ i + 1 = runs.length then [] else if '\r' ∈ run ∨ '\n' ∈ run then ['\n'] else run

section Canonical

variable {runs : List (List Char)}

theorem any_isBreak_iff {run : List Char} : run.any isBreak = true ↔ '\r' ∈ run ∨ '\n' ∈ run := by
  simp only [List.any_eq_true, isBreak, Bool.or_eq_true, beq_iff_eq, and_or_left, exists_or,
    exists_eq_right]

theorem foldRun_eq (run : List Char) :
    foldRun run = if '\r' ∈ run ∨ '\n' ∈ run then ['\n'] else run := by
  unfold foldRun
  simp only [any_isBreak_iff]

/-- A run is folded exactly if it is one line feed or has no line break. -/
theorem foldRun_eq_self_iff {run : List Char} :
    foldRun run = run ↔ ('\r' ∈ run ∨ '\n' ∈ run → run = ['\n']) := by
  rw [foldRun_eq]
  split
  · rename_i h
    rw [forall_prop_of_true h, eq_comm]
  · rename_i h
    simp [h]

theorem bareEnds_cons_concat (first last : List Char) (inner : List (List Char)) :
    bareEnds (first :: (inner ++ [last])) = [] :: (inner ++ [[]]) := by
  rw [bareEnds, List.tail_cons, ← List.cons_append, List.dropLast_concat, List.cons_append]

/-- A list of runs is one run, or a first one, inner ones and a last one. -/
theorem runs_cases (h : runs ≠ []) :
    (∃ run, runs = [run]) ∨ ∃ first inner last, runs = first :: (inner ++ [last]) := by
  obtain ⟨first, rest, rfl⟩ := List.exists_cons_of_ne_nil h
  rcases List.eq_nil_or_concat rest with rfl | ⟨inner, last, rfl⟩
  · exact .inl ⟨first, rfl⟩
  · exact .inr ⟨first, inner, last, by rw [List.concat_eq_append]⟩

theorem canonicalRuns_cons_concat (first last : List Char) (inner : List (List Char)) :
    canonicalRuns (first :: (inner ++ [last])) = [] :: (inner.map foldRun ++ [[]]) := by
  have hlength : (first :: (inner ++ [last])).length = inner.length + 2 := by simp
  have hinner : inner.mapIdx (fun i run =>
      if i + 1 = 0 ∨ i + 1 + 1 = inner.length + 2 then []
      else if '\r' ∈ run ∨ '\n' ∈ run then ['\n'] else run) = inner.map foldRun := by
    apply List.ext_getElem (by simp)
    intro i hi hi'
    rw [List.length_map] at hi'
    rw [List.getElem_mapIdx, List.getElem_map, if_neg (by omega), foldRun_eq]
  rw [canonicalRuns, hlength, List.mapIdx_cons, if_pos (.inl rfl), List.mapIdx_append, hinner,
    List.mapIdx_singleton, if_pos (.inr (by omega))]

theorem canonicalRuns_eq (h : runs ≠ []) : canonicalRuns runs = bareEnds (runs.map foldRun) := by
  rcases runs_cases h with ⟨run, rfl⟩ | ⟨first, inner, last, rfl⟩
  · rfl
  · rw [canonicalRuns_cons_concat, List.map_cons, List.map_append, List.map_singleton,
      bareEnds_cons_concat]

end Canonical

/-! ## Line breaks -/

/-- The ways to write a line break. -/
def lineBreaks : List (List Char) := [['\n'], ['\r'], ['\r', '\n']]

/-- Two texts that are the same up to how their line breaks are written. -/
inductive SameLines : List Char → List Char → Prop
  /-- Empty texts. -/
  | nil : SameLines [] []
  /-- Any character in both. -/
  | char (c : Char) {cs cs' : List Char} : SameLines cs cs' → SameLines (c :: cs) (c :: cs')
  /-- A line break in both. -/
  | lineBreak {brk brk' cs cs' : List Char} : brk ∈ lineBreaks → brk' ∈ lineBreaks →
      SameLines cs cs' → SameLines (brk ++ cs) (brk' ++ cs')

/-- Two runs that are the same or have both a line break. -/
def AlikeRuns (run run' : List Char) : Prop :=
  run = run' ∨ run.any isBreak = true ∧ run'.any isBreak = true

section Lines

variable {run run' cs cs' brk : List Char}

theorem AlikeRuns.foldRun_eq (h : AlikeRuns run run') : foldRun run = foldRun run' := by
  rcases h with rfl | ⟨hrun, hrun'⟩
  · rfl
  · rw [foldRun, foldRun, if_pos hrun, if_pos hrun']

theorem AlikeRuns.append (h : AlikeRuns run run') (white : List Char) :
    AlikeRuns (run ++ white) (run' ++ white) := by
  rcases h with rfl | ⟨hrun, hrun'⟩
  · exact .inl rfl
  · right
    rw [List.any_append, List.any_append, hrun, hrun']
    exact ⟨rfl, rfl⟩

theorem white_of_lineBreak (h : brk ∈ lineBreaks) : ∀ c ∈ brk, isWhite c = true := by
  simp only [lineBreaks, List.mem_cons, List.not_mem_nil, or_false] at h
  rcases h with rfl | rfl | rfl <;> exact List.all_eq_true.1 rfl

theorem any_isBreak_of_lineBreak (h : brk ∈ lineBreaks) : brk.any isBreak = true := by
  simp only [lineBreaks, List.mem_cons, List.not_mem_nil, or_false] at h
  rcases h with rfl | rfl | rfl <;> rfl

/-- Folding does not see how line breaks are written. -/
theorem foldRuns_eq_of_sameLines (hrun : AlikeRuns run run') (h : SameLines cs cs') :
    foldRuns run cs = foldRuns run' cs' := by
  induction h generalizing run run' with
  | nil => exact hrun.foldRun_eq
  | @char c cs cs' _ ih =>
      cases hc : isWhite c with
      | true =>
          rw [foldRuns_cons_of_white run cs hc, foldRuns_cons_of_white run' cs' hc]
          exact ih (hrun.append [c])
      | false =>
          have hrest : foldRuns [] cs = foldRuns [] cs' := ih (.inl rfl)
          rw [foldRuns_cons_of_not_white run cs hc, foldRuns_cons_of_not_white run' cs' hc,
            hrun.foldRun_eq, hrest]
  | @lineBreak brk brk' cs cs' hbrk hbrk' _ ih =>
      rw [foldRuns_append _ _ _ (white_of_lineBreak hbrk),
        foldRuns_append _ _ _ (white_of_lineBreak hbrk')]
      apply ih
      right
      rw [List.any_append, List.any_append, any_isBreak_of_lineBreak hbrk,
        any_isBreak_of_lineBreak hbrk', Bool.or_true, Bool.or_true]
      exact ⟨rfl, rfl⟩

/-- Folding first and trimming then comes to the same. -/
theorem normalizeChars_eq_trim (cs : List Char) : normalizeChars cs = trim (foldRuns [] cs) := by
  apply eq_of_marks_of_whiteRuns
  · rw [marks_normalizeChars, marks_trim, marks_foldRuns (by simp)]
  · rw [whiteRuns_normalizeChars, whiteRuns_trim, whiteRuns_foldRuns (by simp), List.nil_append]

/-- A text is stored alike, however its line breaks are written. -/
theorem normalizeChars_eq_of_sameLines (h : SameLines cs cs') :
    normalizeChars cs = normalizeChars cs' := by
  rw [normalizeChars_eq_trim, normalizeChars_eq_trim, foldRuns_eq_of_sameLines (.inl rfl) h]

end Lines

/-- The stored form of a text is its canonical form: the one text with the same marks and the
canonical runs.  Storing a text again does not change it, and a text is stored as it is exactly if
it is trimmed and every run with a line break is one line feed.  It does not matter how line
breaks are written. -/
theorem normalize_canonical (text : String) :
    (∀ stored : String, stored = normalize text ↔ marks stored.toList = marks text.toList ∧
      whiteRuns stored.toList = canonicalRuns (whiteRuns text.toList)) ∧
      normalize (normalize text) = normalize text ∧
      (normalize text = text ↔ trim text.toList = text.toList ∧
        ∀ run ∈ whiteRuns text.toList, '\r' ∈ run ∨ '\n' ∈ run → run = ['\n']) ∧
      ∀ other : String, SameLines text.toList other.toList → normalize other = normalize text := by
  have hcanonical : canonicalRuns (whiteRuns text.toList) =
      whiteRuns (normalizeChars text.toList) := by
    rw [canonicalRuns_eq (whiteRuns_ne_nil text.toList), whiteRuns_normalizeChars]
  refine ⟨?_, ?_, ?_, ?_⟩
  · intro stored
    constructor
    · rintro rfl
      rw [normalize, String.toList_ofList, hcanonical]
      exact ⟨marks_normalizeChars text.toList, rfl⟩
    · rintro ⟨hmarks, hruns⟩
      have hchars : stored.toList = normalizeChars text.toList :=
        eq_of_marks_of_whiteRuns (hmarks.trans (marks_normalizeChars text.toList).symm)
          (hruns.trans hcanonical)
      rw [normalize, ← hchars, String.ofList_toList]
  · rw [normalize, normalize, String.toList_ofList, normalizeChars_normalizeChars]
  · have hchars : normalize text = text ↔ normalizeChars text.toList = text.toList := by
      rw [normalize, ← String.toList_inj, String.toList_ofList]
    rw [hchars, normalizeChars_eq_self_iff]
    simp only [foldRun_eq_self_iff]
  · intro other hlines
    rw [normalize, normalize, normalizeChars_eq_of_sameLines hlines]

/-- A no-break space is white space without being a line break, so it is lost at a line break and
kept between two words. -/
example : normalize "\u00a0a \r\n\u00a0b\u00a0c " = "a\nb\u00a0c" := by decide

end BemMarkup.Text

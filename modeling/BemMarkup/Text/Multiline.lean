import BemMarkup.Text.Blank

/-!
# Multi-line texts

A text that is written over several lines is stored without the layout of its source:
white space around it is dropped, and every run of white space that holds a line break
becomes one line feed. So the indentation of a continuation line is lost together with
the break before it, while the spaces between two words of one line stay as they are.

`foldRuns` walks the text once and carries the run of white space that it is inside of.
The run is written when the next other character appears, which is the first moment at
which all of it is known.

## Main statements

* `foldRuns_append`: a run followed by another character is written as one unit.
-/

namespace BemMarkup.Text

/-! ## Runs of white space -/

/-- How a run of white space is written: as one line feed if it holds a line break, and
as it is otherwise. -/
def foldRun (run : List Char) : List Char := if run.any isBreak then ['\n'] else run

@[simp] theorem foldRun_nil : foldRun [] = [] := rfl

/-- The text with every run of white space folded, where `run` is the white space that
stands directly before it. -/
def foldRuns (run : List Char) : List Char → List Char
  | [] => foldRun run
  | c :: cs =>
    if isWhite c then foldRuns (run ++ [c]) cs else foldRun run ++ c :: foldRuns [] cs

@[simp] theorem foldRuns_nil (run : List Char) : foldRuns run [] = foldRun run := rfl

theorem foldRuns_cons_of_white (run : List Char) {c : Char} (cs : List Char)
    (h : isWhite c = true) : foldRuns run (c :: cs) = foldRuns (run ++ [c]) cs := by
  simp [foldRuns, h]

theorem foldRuns_cons_of_not_white (run : List Char) {c : Char} (cs : List Char)
    (h : isWhite c = false) :
    foldRuns run (c :: cs) = foldRun run ++ c :: foldRuns [] cs := by
  simp [foldRuns, h]

/-- White space joins the run that is being carried. -/
theorem foldRuns_append (run ws cs : List Char) (h : ∀ c ∈ ws, isWhite c = true) :
    foldRuns run (ws ++ cs) = foldRuns (run ++ ws) cs := by
  induction ws generalizing run with
  | nil => simp
  | cons w ws ih =>
    rw [List.cons_append, foldRuns_cons_of_white _ _ (h w (by simp)),
      ih _ (fun c hc => h c (by simp [hc]))]
    simp

/-! ## The stored form -/

/-- The characters of a multi-line text as it is stored. -/
def normalizeChars (cs : List Char) : List Char := foldRuns [] (trim cs)

/-- A multi-line text as it is stored: trimmed, and with every run of white space that
holds a line break turned into one line feed. -/
def normalize (text : String) : String := String.ofList (normalizeChars text.toList)

end BemMarkup.Text

/-!
# Blank characters

Two notions of blank text are in use, and they differ.

* A *gap* separates two tokens of a document. It is made of the characters up to and
  including the space: every control character of ASCII counts, and nothing beyond.
* *White space* is what is trimmed from a value and folded inside a multi-line text. It
  is the Unicode property `White_Space`, which has 25 characters: some of them lie far
  above the space, and most control characters are not among them.

## Main statements

* `isGap_of_isBreak`, `isWhite_of_isBreak`: a line break is blank in both senses.
* `trimEnd_append_white`, `trimEnd_append_of_not_white`: what trimming does to the end of a
  text.
* `exists_white_of_trimEnd`: nothing but white space is trimmed.
-/

namespace BemMarkup.Text

/-! ## The two classes -/

/-- A character that may stand between two tokens: the space and all before it. -/
def isGap (c : Char) : Bool := c.val ≤ 0x20

/-- The Unicode property `White_Space`. -/
def isWhite (c : Char) : Bool :=
  (0x09 ≤ c.val && c.val ≤ 0x0D) || c.val == 0x20 || c.val == 0x85 || c.val == 0xA0 ||
    c.val == 0x1680 || (0x2000 ≤ c.val && c.val ≤ 0x200A) || c.val == 0x2028 ||
    c.val == 0x2029 || c.val == 0x202F || c.val == 0x205F || c.val == 0x3000

/-- A character that ends a line of source text: a carriage return or a line feed. -/
def isBreak (c : Char) : Bool := c == '\r' || c == '\n'

/-- A line break is a gap. -/
theorem isGap_of_isBreak {c : Char} (h : isBreak c) : isGap c := by
  simp only [isBreak, Bool.or_eq_true, beq_iff_eq] at h
  rcases h with rfl | rfl <;> decide

/-- A line break is white space. -/
theorem isWhite_of_isBreak {c : Char} (h : isBreak c) : isWhite c := by
  simp only [isBreak, Bool.or_eq_true, beq_iff_eq] at h
  rcases h with rfl | rfl <;> decide

/-! ## Trimming -/

/-- The text without the white space at its end. -/
def trimEnd (cs : List Char) : List Char := (cs.reverse.dropWhile isWhite).reverse

/-- The text without the white space before its first and after its last other
character. -/
def trim (cs : List Char) : List Char := trimEnd (cs.dropWhile isWhite)

@[simp] theorem trimEnd_nil : trimEnd [] = [] := rfl

@[simp] theorem trim_nil : trim [] = [] := rfl

/-- A text that ends in a character other than white space loses nothing at its end. -/
theorem trimEnd_append_of_not_white (cs : List Char) {c : Char} (h : isWhite c = false) :
    trimEnd (cs ++ [c]) = cs ++ [c] := by
  simp [trimEnd, h]

/-- All white space at the end is dropped. -/
theorem trimEnd_append_white (cs : List Char) {white : List Char}
    (h : ∀ c ∈ white, isWhite c = true) : trimEnd (cs ++ white) = trimEnd cs := by
  rw [trimEnd, List.reverse_append,
    List.dropWhile_append_of_pos fun c hc => h c (List.mem_reverse.1 hc), trimEnd]

/-- What is trimmed at the end of a text is white space. -/
theorem exists_white_of_trimEnd (cs : List Char) :
    ∃ white, cs = trimEnd cs ++ white ∧ ∀ c ∈ white, isWhite c = true := by
  refine ⟨(cs.reverse.takeWhile isWhite).reverse, ?_, fun c hc => ?_⟩
  · rw [trimEnd, ← List.reverse_append, List.takeWhile_append_dropWhile, List.reverse_reverse]
  · exact List.all_eq_true.1 List.all_takeWhile c (List.mem_reverse.1 hc)

end BemMarkup.Text

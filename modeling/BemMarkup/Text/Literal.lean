/-!
# Escapes in literals

Literals keep their escapes as they are written; an escape is a backslash together with
the character after it. `unescape` gives the text that a literal stands for.

## Main statements

* `unescapeChars_of_no_backslash`: a text without a backslash stands for itself.
-/

namespace BemMarkup.Text

/-- The character that an escape stands for: `n`, `r`, `t` and `0` name control
characters, and every other character names itself. -/
def escapeTarget : Char → Char
  | 'n' => '\n'
  | 'r' => '\r'
  | 't' => '\t'
  | '0' => '\x00'
  | c => c

/-- The characters that a literal stands for. A backslash with nothing after it stands
for itself. -/
def unescapeChars : List Char → List Char
  | [] => []
  | '\\' :: c :: cs => escapeTarget c :: unescapeChars cs
  | c :: cs => c :: unescapeChars cs

@[simp] theorem unescapeChars_nil : unescapeChars [] = [] := rfl

@[simp] theorem unescapeChars_escape (c : Char) (cs : List Char) :
    unescapeChars ('\\' :: c :: cs) = escapeTarget c :: unescapeChars cs := rfl

theorem unescapeChars_cons_of_ne {c : Char} (cs : List Char) (h : c ≠ '\\') :
    unescapeChars (c :: cs) = c :: unescapeChars cs := by
  cases cs <;> simp [unescapeChars, h]

/-- A text without a backslash stands for itself. -/
theorem unescapeChars_of_no_backslash {cs : List Char} (h : '\\' ∉ cs) :
    unescapeChars cs = cs := by
  induction cs with
  | nil => rfl
  | cons c cs ih =>
    simp only [List.mem_cons, not_or] at h
    rw [unescapeChars_cons_of_ne _ (Ne.symm h.1), ih h.2]

/-- The text that a literal stands for. -/
def unescape (text : String) : String := String.ofList (unescapeChars text.toList)

end BemMarkup.Text

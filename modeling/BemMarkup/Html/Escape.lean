/-!
# Attribute values in HTML

A value is written between double quotes. `escape` replaces the five characters that
could end the value, start a tag or start an entity, so the written text holds none of
`<`, `>`, `"` and `'`, and a `&` only as the start of one of five entities.

## Main statements

* `escapeChars_append`: escaping works character by character.
* `not_mem_escapeChars`: no quote and no angle bracket survives.
-/

namespace BemMarkup.Html

/-- How a character is written inside an attribute value. -/
def escapeChar : Char → List Char
  | '&' => ['&', 'a', 'm', 'p', ';']
  | '<' => ['&', 'l', 't', ';']
  | '>' => ['&', 'g', 't', ';']
  | '"' => ['&', 'q', 'u', 'o', 't', ';']
  | '\'' => ['&', '#', '3', '9', ';']
  | c => [c]

/-- The characters that write a text inside an attribute value. -/
def escapeChars (cs : List Char) : List Char := cs.flatMap escapeChar

@[simp] theorem escapeChars_nil : escapeChars [] = [] := rfl

@[simp] theorem escapeChars_cons (c : Char) (cs : List Char) :
    escapeChars (c :: cs) = escapeChar c ++ escapeChars cs := rfl

@[simp] theorem escapeChars_append (xs ys : List Char) :
    escapeChars (xs ++ ys) = escapeChars xs ++ escapeChars ys := by
  simp [escapeChars]

/-- The characters that could break out of a value do not occur in a written one. -/
theorem not_mem_escapeChars {c : Char} (h : c ∈ ['<', '>', '"', '\'']) (cs : List Char) :
    c ∉ escapeChars cs := by
  simp only [escapeChars, List.mem_flatMap, not_exists, not_and]
  intro d _ hc
  simp only [List.mem_cons, List.not_mem_nil, or_false] at h
  unfold escapeChar at hc
  rcases h with rfl | rfl | rfl | rfl <;> split at hc <;> simp at hc <;> grind

/-- A text as it is written inside a double-quoted attribute value. -/
def escape (text : String) : String := String.ofList (escapeChars text.toList)

end BemMarkup.Html

/-!
# Names

Four classes of names are in use. They share their characters (letters and digits of
ASCII, `_` and `-`) and differ in two points: whether a name may start with `_`, and
whether it may consist of two segments joined by a colon.

`NameClass.lexeme` reads the name at the start of a text. It gives the text that it takes,
so a reader goes on behind it with `List.drop`. `NameClass.IsName` says what a name is
without reading anything.

## Main statements

* `NameClass.lexeme_prefix`: the name that is read stands at the start of the text.
* `NameClass.lexeme_isName`: what is read is a name of the class, unless it is empty.
-/

namespace BemMarkup.Document

/-! ## Classes of names -/

/-- What a name is used for. -/
inductive NameClass where
  /-- The name of a block. -/
  | block
  /-- The tag of an element. -/
  | tag
  /-- The name of an element inside its block. -/
  | element
  /-- The name of an attribute. -/
  | attribute
deriving DecidableEq, Repr

/-- Whether names of the class may start with an underscore. -/
def NameClass.startsWithUnderscore : NameClass → Bool
  | .block | .tag => false
  | .element | .attribute => true

/-- Whether names of the class may have a second segment after a colon. -/
def NameClass.hasNamespace : NameClass → Bool
  | .tag | .attribute => true
  | .block | .element => false

/-- A letter of ASCII or an underscore. -/
def isLetterOrUnderscore (c : Char) : Bool := c.isAlpha || c == '_'

/-- Whether a name of the class may start with the character. -/
def NameClass.isStart (cls : NameClass) (c : Char) : Bool :=
  if cls.startsWithUnderscore then isLetterOrUnderscore c else c.isAlpha

/-- Whether the character may stand inside a segment of a name. -/
def isNameChar (c : Char) : Bool := c.isAlphanum || c == '_' || c == '-'

/-! ## What a name is -/

/-- One segment of a name: a character that may start it, followed by name characters. -/
def IsSegment (start : Char → Bool) (cs : List Char) : Prop :=
  ∃ c rest, cs = c :: rest ∧ start c = true ∧ ∀ d ∈ rest, isNameChar d = true

/-- A name of the class: one segment or, where the class has namespaces, two of them
around a colon. -/
def NameClass.IsName (cls : NameClass) (cs : List Char) : Prop :=
  IsSegment cls.isStart cs ∨
    cls.hasNamespace = true ∧ ∃ first second, cs = first ++ ':' :: second ∧
      IsSegment cls.isStart first ∧ IsSegment isLetterOrUnderscore second

/-! ## Reading a name -/

/-- The segment at the start of a text; empty if there is none. -/
def segment (start : Char → Bool) : List Char → List Char
  | [] => []
  | c :: cs => if start c then c :: cs.takeWhile isNameChar else []

/-- The second part of a name at the start of a text: a colon and a segment; empty unless
both are there. -/
def localPart : List Char → List Char
  | ':' :: cs =>
    let second := segment isLetterOrUnderscore cs
    if second.isEmpty then [] else ':' :: second
  | _ => []

/-- The name of the class at the start of a text; empty if there is none. -/
def NameClass.lexeme (cls : NameClass) (cs : List Char) : List Char :=
  let first := segment cls.isStart cs
  if cls.hasNamespace && !first.isEmpty then first ++ localPart (cs.drop first.length)
  else first

/-- What follows the first part of a text is left when as many characters are dropped. -/
theorem drop_length_of_append_eq {xs ys cs : List Char} (h : xs ++ ys = cs) :
    cs.drop xs.length = ys := by
  subst h
  simp

theorem segment_prefix (start : Char → Bool) (cs : List Char) : segment start cs <+: cs := by
  cases cs with
  | nil => simp [segment]
  | cons c cs =>
    rw [segment]
    split
    · exact List.cons_prefix_cons.2 ⟨rfl, List.takeWhile_prefix isNameChar⟩
    · exact List.nil_prefix

theorem segment_isSegment {start : Char → Bool} {cs : List Char} (h : segment start cs ≠ []) :
    IsSegment start (segment start cs) := by
  cases cs with
  | nil => simp [segment] at h
  | cons c cs =>
    rw [segment] at h ⊢
    by_cases hc : start c = true
    · rw [if_pos hc]
      exact ⟨c, _, rfl, hc, fun d hd => List.all_eq_true.1 List.all_takeWhile d hd⟩
    · simp [hc] at h

theorem localPart_prefix (cs : List Char) : localPart cs <+: cs := by
  unfold localPart
  split
  · rename_i cs
    dsimp only
    split
    · exact List.nil_prefix
    · exact List.cons_prefix_cons.2 ⟨rfl, segment_prefix _ cs⟩
  · exact List.nil_prefix

/-- The name that is read stands at the start of the text. -/
theorem NameClass.lexeme_prefix (cls : NameClass) (cs : List Char) : cls.lexeme cs <+: cs := by
  obtain ⟨rest, hrest⟩ := segment_prefix cls.isStart cs
  unfold NameClass.lexeme
  dsimp only
  split
  · have hdrop : cs.drop (segment cls.isStart cs).length = rest :=
        drop_length_of_append_eq hrest
    obtain ⟨rest', hrest'⟩ := localPart_prefix rest
    exact ⟨rest', by rw [hdrop, List.append_assoc, hrest', hrest]⟩
  · exact ⟨rest, hrest⟩

/-- What is read is a name of the class, unless it is empty. -/
theorem NameClass.lexeme_isName {cls : NameClass} {cs : List Char} (h : cls.lexeme cs ≠ []) :
    cls.IsName (cls.lexeme cs) := by
  unfold NameClass.lexeme at h ⊢
  dsimp only at h ⊢
  split at h
  · rename_i hns
    rw [if_pos hns]
    simp only [Bool.and_eq_true, Bool.not_eq_true', List.isEmpty_eq_false_iff] at hns
    have hfirst := segment_isSegment hns.2
    unfold localPart
    split
    · dsimp only
      split
      · exact Or.inl (by simpa using hfirst)
      · rename_i cs' _ hsecond
        rw [List.isEmpty_iff] at hsecond
        exact Or.inr ⟨hns.1, _, _, rfl, hfirst, segment_isSegment hsecond⟩
    · exact Or.inl (by simpa using hfirst)
  · rename_i hns
    rw [if_neg hns]
    exact Or.inl (segment_isSegment h)

end BemMarkup.Document

import Mathlib.Computability.RegularExpressions
import BemMarkup.Proofs.Document.Lookahead

/-!
# Names and super calls as longest matches

The four classes of names are regular languages, and the name at the start of a text is the
longest start of the text that belongs to the language of its class.  `NameClass.pattern` writes
the languages down as regular expressions; the reader knows nothing of them, it takes segments
apart by their characters.

A second segment makes the question interesting: of `ns:1` only `ns` is a tag, and of `a:b:c` only
`a:b`.  So every name that starts a text has to be compared with what is read, also one that goes
on behind the colon at which the first segment ends.

Super calls need no comparison.  A text starts with at most one of them, since no character of a
name is an exclamation mark.

## Main definitions

* `NameClass.pattern`: the names of a class as a regular expression.
* `IsMatchLength`: the length of the longest match at the start of a source.

## Main results

* `mem_pattern_iff`: the regular expressions describe the names.
* `prefix_lexeme`: every name at the start of a text is a start of what is read.
* `read?_eq_some_iff`: a super call is read exactly where one is written.
* `names_longest`: both together, in bytes.
-/

namespace BemMarkup.Document

open Text

/-! ## Patterns -/

/-- The characters from the first to the last one. -/
def between (first last : Char) : List Char :=
  (List.range' first.toNat (last.toNat + 1 - first.toNat)).map Char.ofNat

/-- The letters of ASCII. -/
def letters : List Char := between 'A' 'Z' ++ between 'a' 'z'

/-- Letters, digits and the underscore. -/
def wordChars : List Char := letters ++ between '0' '9' ++ ['_']

/-- One of the characters. -/
def oneOf (chars : List Char) : RegularExpression Char := (chars.map .char).sum

/-- One of the characters in `starts`, and then any number of word characters and hyphens. -/
def segmentPattern (starts : List Char) : RegularExpression Char :=
  oneOf starts * (oneOf ('-' :: wordChars)).star

/-- A colon and a segment behind it, or nothing. -/
def namespacePattern : RegularExpression Char := 1 + .char ':' * segmentPattern ('_' :: letters)

/-- The names of a class. -/
def NameClass.pattern : NameClass → RegularExpression Char
  | .block => segmentPattern letters
  | .tag => segmentPattern letters * namespacePattern
  | .element => segmentPattern ('_' :: letters)
  | .attribute => segmentPattern ('_' :: letters) * namespacePattern

/-! ## Classes of characters -/

section Characters

variable {c : Char}

theorem toNat_ofNat {n : Nat} (h : n.isValidChar) : (Char.ofNat n).toNat = n := by
  rw [Char.ofNat, dif_pos h]
  rfl

theorem mem_between_iff (c first last : Char) (h : last.toNat < 0xD800) :
    c ∈ between first last ↔ first.toNat ≤ c.toNat ∧ c.toNat ≤ last.toNat := by
  rw [between, List.mem_map]
  constructor
  · rintro ⟨n, hn, rfl⟩
    rw [List.mem_range'_1] at hn
    have hvalid : n.isValidChar := .inl (by omega)
    rw [toNat_ofNat hvalid]
    omega
  · intro hc
    refine ⟨c.toNat, ?_, Char.ofNat_toNat c⟩
    rw [List.mem_range'_1]
    omega

theorem mem_letters_iff : c ∈ letters ↔ c.isAlpha = true := by
  have hupper := mem_between_iff c 'A' 'Z' (by decide)
  have hlower := mem_between_iff c 'a' 'z' (by decide)
  have halpha : c.isAlpha = (decide ('A'.val ≤ c.val ∧ c.val ≤ 'Z'.val) ||
      decide ('a'.val ≤ c.val) && decide (c.val ≤ 'z'.val)) := rfl
  rw [letters, List.mem_append, hupper, hlower, halpha]
  simp only [Bool.or_eq_true, Bool.and_eq_true, decide_eq_true_eq, UInt32.le_iff_toNat_le]
  rfl

theorem mem_underscore_letters_iff : c ∈ '_' :: letters ↔ isLetterOrUnderscore c = true := by
  rw [List.mem_cons, mem_letters_iff, isLetterOrUnderscore, Bool.or_eq_true, beq_iff_eq, or_comm]

theorem mem_hyphen_wordChars_iff : c ∈ '-' :: wordChars ↔ isNameChar c = true := by
  have hdigit := mem_between_iff c '0' '9' (by decide)
  rw [wordChars, List.mem_cons, List.mem_append, List.mem_append, List.mem_singleton,
    mem_letters_iff, hdigit, isNameChar, Char.isAlphanum]
  simp only [Char.isDigit, Bool.or_eq_true, Bool.and_eq_true, decide_eq_true_eq, beq_iff_eq,
    UInt32.le_iff_toNat_le]
  exact or_comm

end Characters

/-! ## Languages -/

section Languages

variable {chars starts text : List Char}

theorem mem_oneOf_iff : text ∈ (oneOf chars).matches' ↔ ∃ c ∈ chars, text = [c] := by
  induction chars with
  | nil => simp [oneOf]
  | cons c chars ih =>
      have hsum : oneOf (c :: chars) = .char c + oneOf chars := rfl
      rw [hsum, RegularExpression.matches'_add, Language.mem_add, ih,
        RegularExpression.matches'_char]
      simp only [List.mem_cons, exists_eq_or_imp]
      rfl

theorem mem_star_oneOf_iff : text ∈ (oneOf chars).star.matches' ↔ ∀ c ∈ text, c ∈ chars := by
  rw [RegularExpression.matches'_star, Language.mem_kstar]
  constructor
  · rintro ⟨parts, rfl, hparts⟩ c hc
    obtain ⟨part, hpart, hc⟩ := List.mem_flatten.1 hc
    obtain ⟨d, hd, rfl⟩ := mem_oneOf_iff.1 (hparts part hpart)
    rwa [List.mem_singleton.1 hc]
  · intro h
    refine ⟨text.map fun c => [c], ?_, ?_⟩
    · rw [← List.flatMap_def, List.flatMap_singleton']
    · intro part hpart
      obtain ⟨c, hc, rfl⟩ := List.mem_map.1 hpart
      exact mem_oneOf_iff.2 ⟨c, h c hc, rfl⟩

theorem mem_segmentPattern_iff {start : Char → Bool} (h : ∀ c, c ∈ starts ↔ start c = true) :
    text ∈ (segmentPattern starts).matches' ↔ IsSegment start text := by
  rw [segmentPattern, RegularExpression.matches'_mul, Language.mem_mul]
  constructor
  · rintro ⟨front, hfront, rest, hrest, rfl⟩
    obtain ⟨c, hc, rfl⟩ := mem_oneOf_iff.1 hfront
    rw [mem_star_oneOf_iff] at hrest
    exact ⟨c, rest, rfl, (h c).1 hc, fun d hd => mem_hyphen_wordChars_iff.1 (hrest d hd)⟩
  · rintro ⟨c, rest, rfl, hc, hrest⟩
    refine ⟨[c], mem_oneOf_iff.2 ⟨c, (h c).2 hc, rfl⟩, rest, ?_, rfl⟩
    exact mem_star_oneOf_iff.2 fun d hd => mem_hyphen_wordChars_iff.2 (hrest d hd)

theorem mem_namespacePattern_iff : text ∈ namespacePattern.matches' ↔
    text = [] ∨ ∃ second, text = ':' :: second ∧ IsSegment isLetterOrUnderscore second := by
  rw [namespacePattern, RegularExpression.matches'_add, Language.mem_add,
    RegularExpression.matches'_epsilon, Language.mem_one, RegularExpression.matches'_mul,
    RegularExpression.matches'_char, Language.mem_mul]
  apply or_congr_right
  constructor
  · rintro ⟨front, hfront, second, hsecond, rfl⟩
    rw [Set.mem_singleton_iff.1 hfront]
    exact ⟨second, rfl, (mem_segmentPattern_iff fun c => mem_underscore_letters_iff).1 hsecond⟩
  · rintro ⟨second, rfl, hsecond⟩
    exact ⟨[':'], rfl, second,
      (mem_segmentPattern_iff fun c => mem_underscore_letters_iff).2 hsecond, rfl⟩

/-- A segment and what may follow it in a class with namespaces. -/
theorem mem_segmentPattern_mul_iff {start : Char → Bool} (h : ∀ c, c ∈ starts ↔ start c = true) :
    text ∈ (segmentPattern starts * namespacePattern).matches' ↔ IsSegment start text ∨
      ∃ first second, text = first ++ ':' :: second ∧ IsSegment start first ∧
        IsSegment isLetterOrUnderscore second := by
  rw [RegularExpression.matches'_mul, Language.mem_mul]
  constructor
  · rintro ⟨first, hfirst, rest, hrest, rfl⟩
    rw [mem_segmentPattern_iff h] at hfirst
    rw [mem_namespacePattern_iff] at hrest
    rcases hrest with rfl | ⟨second, rfl, hsecond⟩
    · rw [List.append_nil]
      exact .inl hfirst
    · exact .inr ⟨first, second, rfl, hfirst, hsecond⟩
  · rintro (hsegment | ⟨first, second, rfl, hfirst, hsecond⟩)
    · exact ⟨text, (mem_segmentPattern_iff h).2 hsegment, [], mem_namespacePattern_iff.2 (.inl rfl),
        List.append_nil text⟩
    · exact ⟨first, (mem_segmentPattern_iff h).2 hfirst, ':' :: second,
        mem_namespacePattern_iff.2 (.inr ⟨second, rfl, hsecond⟩), rfl⟩

/-- The pattern of a class describes its names. -/
theorem mem_pattern_iff (cls : NameClass) : text ∈ cls.pattern.matches' ↔ cls.IsName text := by
  have hplain : ∀ c, c ∈ letters ↔ c.isAlpha = true := fun c => mem_letters_iff
  have hunderscore : ∀ c, c ∈ '_' :: letters ↔ isLetterOrUnderscore c = true :=
    fun c => mem_underscore_letters_iff
  -- A class without namespaces has names of one segment only.
  have hnone : ∀ p q : Prop, (p ∨ false = true ∧ q) ↔ p := by simp
  have hboth : ∀ p q : Prop, (p ∨ true = true ∧ q) ↔ p ∨ q := by simp
  match cls with
  | .block => exact (mem_segmentPattern_iff hplain).trans (hnone _ _).symm
  | .tag => exact (mem_segmentPattern_mul_iff hplain).trans (hboth _ _).symm
  | .element => exact (mem_segmentPattern_iff hunderscore).trans (hnone _ _).symm
  | .attribute => exact (mem_segmentPattern_mul_iff hunderscore).trans (hboth _ _).symm

end Languages

/-! ## Longest matches -/

section Longest

variable {cls : NameClass} {name text : List Char}

/-- Every segment at the start of a text is a start of the one that is read. -/
theorem prefix_segment {start : Char → Bool} (h : IsSegment start name) (hname : name <+: text) :
    name <+: segment start text := by
  obtain ⟨c, rest, rfl, hc, hrest⟩ := h
  obtain ⟨tail, rfl⟩ := hname
  rw [List.cons_append, segment, if_pos hc, List.takeWhile_append_of_pos hrest]
  exact ⟨tail.takeWhile isNameChar, rfl⟩

/-- Every name at the start of a text is a start of the one that is read. -/
theorem prefix_lexeme (h : cls.IsName name) (hname : name <+: text) : name <+: cls.lexeme text := by
  unfold NameClass.lexeme
  dsimp only
  rcases h with hsegment | ⟨hnamespace, first, second, rfl, hfirst, hsecond⟩
  · have hshort := prefix_segment hsegment hname
    split
    · exact hshort.trans (List.prefix_append _ _)
    · exact hshort
  · -- The colon ends the first segment, so both readings agree up to it.
    obtain ⟨tail, rfl⟩ := hname
    have hcolon : Heads (fun d => isNameChar d = false) (':' :: (second ++ tail)) :=
      .cons (by decide) _
    have hread : segment cls.isStart (first ++ ':' :: second ++ tail) = first := by
      rw [List.append_assoc, List.cons_append]
      exact segment_append hfirst hcolon
    have hne : first.isEmpty = false := by
      obtain ⟨c, rest, rfl, -⟩ := hfirst
      rfl
    have hsecond' : second <+: segment isLetterOrUnderscore (second ++ tail) :=
      prefix_segment hsecond (List.prefix_append second tail)
    have hne' : (segment isLetterOrUnderscore (second ++ tail)).isEmpty = false := by
      obtain ⟨c, rest, rfl, -⟩ := hsecond
      obtain ⟨back, hback⟩ := hsecond'
      rw [← hback]
      rfl
    have hlocal : localPart (':' :: (second ++ tail)) =
        ':' :: segment isLetterOrUnderscore (second ++ tail) := by
      rw [localPart, hne', if_neg Bool.false_ne_true]
    rw [hread, hnamespace, hne, Bool.not_false, Bool.and_self, if_pos rfl, List.append_assoc,
      List.drop_left, List.cons_append, hlocal, List.prefix_append_right_inj]
    exact List.cons_prefix_cons.2 ⟨rfl, hsecond'⟩

/-- A start of a text takes no more bytes than the text. -/
theorem byteLength_le_of_prefix {front : List Char} (h : front <+: text) :
    byteLength front ≤ byteLength text := by
  obtain ⟨rest, rfl⟩ := h
  rw [byteLength_append]
  exact Nat.le_add_right _ _

/-- Behind a start of a text is a boundary between characters. -/
theorem isValid_of_prefix {source : String} {front : List Char} (h : front <+: source.toList) :
    String.Pos.Raw.IsValid source ⟨byteLength front⟩ := by
  obtain ⟨rest, hrest⟩ := h
  rw [String.Pos.Raw.isValid_iff_exists_append]
  refine ⟨String.ofList front, String.ofList rest, ?_, ?_⟩
  · rw [← String.ofList_append, hrest, String.ofList_toList]
  · rw [← utf8ByteSize_ofList]
    rfl

/-- The number is the length in bytes of the longest start of the source in the language, or zero
if no start of the source is in it. -/
def IsMatchLength (language : Language Char) (source : String) (length : Nat) : Prop :=
  (∀ front ∈ language, front <+: source.toList → byteLength front ≤ length) ∧
    ((∃ front ∈ language, front <+: source.toList ∧ byteLength front = length) ∨
      length = 0 ∧ ∀ front ∈ language, ¬ front <+: source.toList)

/-- What is read as a name is the longest match of the pattern. -/
theorem isMatchLength_lexeme (cls : NameClass) (source : String) :
    IsMatchLength cls.pattern.matches' source (byteLength (cls.lexeme source.toList)) := by
  constructor
  · intro front hfront hsource
    exact byteLength_le_of_prefix (prefix_lexeme ((mem_pattern_iff cls).1 hfront) hsource)
  · by_cases hempty : cls.lexeme source.toList = []
    · right
      refine ⟨by rw [hempty, byteLength_nil], ?_⟩
      intro front hfront hsource
      have hname := (mem_pattern_iff cls).1 hfront
      have hshort := prefix_lexeme hname hsource
      rw [hempty, List.prefix_nil] at hshort
      exact ne_nil_of_isName hname hshort
    · left
      have hname := NameClass.lexeme_isName hempty
      exact ⟨_, (mem_pattern_iff cls).2 hname, cls.lexeme_prefix source.toList, rfl⟩

/-! ## Super calls -/

/-- A super call is read exactly where one is written. -/
theorem read?_eq_some_iff {token : SuperToken} :
    SuperToken.read? text = some token ↔ token.IsValid ∧ token.lexeme <+: text := by
  constructor
  · intro h
    exact ⟨isValid_of_read? h, SuperToken.lexeme_prefix h⟩
  · rintro ⟨hvalid, rest, rfl⟩
    exact read?_lexeme_append hvalid

theorem isValid_none : SuperToken.IsValid ⟨none⟩ := by
  rintro name ⟨⟩

theorem isValid_some : SuperToken.IsValid ⟨some name⟩ ↔ NameClass.element.IsName name := by
  constructor
  · intro h
    exact h name rfl
  · rintro h _ ⟨⟩
    exact h

end Longest

/-- For every class, as many bytes of a source are taken for a name as its longest start in the
language of the class has, or none if it has no such start, and they end at a boundary between
characters.  A super call is read exactly where `super!` or `super.name!` starts the source, with
the name that is written there; no other super call starts the source, and the reader goes over
its bytes. -/
theorem names_longest (source : String) :
    (∀ cls : NameClass,
      IsMatchLength cls.pattern.matches' source (byteLength (cls.lexeme source.toList)) ∧
        String.Pos.Raw.IsValid source ⟨byteLength (cls.lexeme source.toList)⟩) ∧
      (SuperToken.read? source.toList = some ⟨none⟩ ↔ "super!".toList <+: source.toList) ∧
      (∀ name, SuperToken.read? source.toList = some ⟨some name⟩ ↔
        name ∈ NameClass.element.pattern.matches' ∧
          "super.".toList ++ name ++ "!".toList <+: source.toList) ∧
      ∀ token, SuperToken.read? source.toList = some token →
        (∀ other : SuperToken, other.IsValid → other.lexeme <+: source.toList → other = token) ∧
          ∀ offset, ∃ call next, readSuperCall? ⟨offset, source.toList⟩ = some (call, next) ∧
            call.target = token.target.map String.ofList ∧
            next.offset = offset + byteLength token.lexeme := by
  refine ⟨?_, ?_, ?_, ?_⟩
  · intro cls
    exact ⟨isMatchLength_lexeme cls source, isValid_of_prefix (cls.lexeme_prefix source.toList)⟩
  · have hwritten : SuperToken.lexeme ⟨none⟩ = "super!".toList := rfl
    rw [read?_eq_some_iff, hwritten]
    exact and_iff_right isValid_none
  · intro name
    have hwritten : SuperToken.lexeme ⟨some name⟩ = "super.".toList ++ name ++ "!".toList := rfl
    rw [read?_eq_some_iff, hwritten, isValid_some, mem_pattern_iff]
  · intro token htoken
    constructor
    · intro other hvalid hother
      have hread := read?_eq_some_iff.2 ⟨hvalid, hother⟩
      exact Option.some.inj (hread.symm.trans htoken)
    · intro offset
      let c : Cursor := ⟨offset, source.toList⟩
      have hreader : readSuperCall? c = some (⟨token.target.map String.ofList,
          c.spanTo (c.past token.lexeme)⟩, c.past token.lexeme) := by
        rw [readSuperCall?, htoken, Option.map_some]
      exact ⟨_, _, hreader, rfl, rfl⟩

/-- A colon without a segment behind it is no part of a tag. -/
example : NameClass.tag.lexeme "ns:1".toList = "ns".toList := by decide

end BemMarkup.Document

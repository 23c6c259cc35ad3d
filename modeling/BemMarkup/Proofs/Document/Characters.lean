import BemMarkup.Document.SuperCall
import BemMarkup.Document.Token

/-!
# Characters of names and of gaps

Names, gaps and the marks of the language are made of different characters, and this is
what lets a reader tell where a token ends.  All names are written between `-` and `z`,
which is above every gap and apart from all white space.

## Main results

* `isGap_of_isNameChar`, `isWhite_of_isNameChar`: the characters of names are not blank.
* `isNameChar_of_isName`: a name is made of name characters and colons.
-/

namespace BemMarkup.Document

open Text

/-! ## Ranges of characters -/

theorem isNameChar_bounds {c : Char} (h : isNameChar c = true) :
    0x2D ≤ c.val.toNat ∧ c.val.toNat ≤ 0x7A := by
  change (decide (65 ≤ c.val ∧ c.val ≤ 90) || (decide (97 ≤ c.val) && decide (c.val ≤ 122)) ||
    (decide (48 ≤ c.val) && decide (c.val ≤ 57)) || c == '_' || c == '-') = true at h
  simp only [Bool.or_eq_true, Bool.and_eq_true, decide_eq_true_eq, beq_iff_eq,
    UInt32.le_iff_toNat_le] at h
  rcases h with (((h | h) | h) | rfl) | rfl
  · exact ⟨Nat.le_trans (by decide) h.1, Nat.le_trans h.2 (by decide)⟩
  · exact ⟨Nat.le_trans (by decide) h.1, Nat.le_trans h.2 (by decide)⟩
  · exact ⟨Nat.le_trans (by decide) h.1, Nat.le_trans h.2 (by decide)⟩
  · decide
  · decide

/-- The characters of names are no gaps. -/
theorem isGap_of_isNameChar {c : Char} (h : isNameChar c = true) : isGap c = false := by
  have hbounds := isNameChar_bounds h
  simp only [isGap, decide_eq_false_iff_not, UInt32.le_iff_toNat_le]
  show ¬ c.val.toNat ≤ 32
  omega

/-- The characters of names are no white space. -/
theorem isWhite_of_isNameChar {c : Char} (h : isNameChar c = true) : isWhite c = false := by
  have hbounds := isNameChar_bounds h
  simp only [isWhite, Bool.or_eq_false_iff, Bool.and_eq_false_iff, decide_eq_false_iff_not,
    beq_eq_false_iff_ne, ne_eq, UInt32.le_iff_toNat_le, ← UInt32.toNat_inj, UInt32.reduceToNat]
  omega

/-! ## Characters of names -/

theorem isNameChar_of_isLetterOrUnderscore {c : Char} (h : isLetterOrUnderscore c = true) :
    isNameChar c = true := by
  simp only [isLetterOrUnderscore, Bool.or_eq_true] at h
  simp only [isNameChar, Char.isAlphanum, Bool.or_eq_true]
  rcases h with h | h
  · exact .inl (.inl (.inl h))
  · exact .inl (.inr h)

theorem isLetterOrUnderscore_of_isStart {cls : NameClass} {c : Char} (h : cls.isStart c = true) :
    isLetterOrUnderscore c = true := by
  unfold NameClass.isStart at h
  split at h
  · exact h
  · simp [isLetterOrUnderscore, h]

theorem isNameChar_of_isStart {cls : NameClass} {c : Char} (h : cls.isStart c = true) :
    isNameChar c = true :=
  isNameChar_of_isLetterOrUnderscore (isLetterOrUnderscore_of_isStart h)

theorem isNameChar_of_isSegment {start : Char → Bool}
    (hstart : ∀ c, start c = true → isNameChar c = true) {cs : List Char}
    (h : IsSegment start cs) : ∀ c ∈ cs, isNameChar c = true := by
  obtain ⟨first, rest, rfl, hfirst, hrest⟩ := h
  exact List.forall_mem_cons.2 ⟨hstart first hfirst, hrest⟩

/-- A name is made of name characters and colons. -/
theorem isNameChar_of_isName {cls : NameClass} {cs : List Char} (h : cls.IsName cs) :
    ∀ c ∈ cs, isNameChar c = true ∨ c = ':' := by
  intro c hc
  rcases h with h | ⟨-, first, second, rfl, hfirst, hsecond⟩
  · exact .inl (isNameChar_of_isSegment (fun _ => isNameChar_of_isStart) h c hc)
  · rcases List.mem_append.1 hc with hc | hc
    · exact .inl (isNameChar_of_isSegment (fun _ => isNameChar_of_isStart) hfirst c hc)
    · rcases List.mem_cons.1 hc with rfl | hc
      · exact .inr rfl
      · exact .inl (isNameChar_of_isSegment (fun _ => isNameChar_of_isLetterOrUnderscore) hsecond
          c hc)

theorem head_of_isName {cls : NameClass} {cs : List Char} (h : cls.IsName cs) :
    ∃ c rest, cs = c :: rest ∧ cls.isStart c = true := by
  rcases h with ⟨c, rest, rfl, hc, -⟩ | ⟨-, _, second, rfl, ⟨c, rest, rfl, hc, -⟩, -⟩
  · exact ⟨c, rest, rfl, hc⟩
  · exact ⟨c, rest ++ ':' :: second, rfl, hc⟩

theorem ne_nil_of_isName {cls : NameClass} {cs : List Char} (h : cls.IsName cs) : cs ≠ [] := by
  obtain ⟨c, rest, rfl, -⟩ := head_of_isName h
  simp

/-! ## Starts of tokens -/

section Starts

variable {c : Char} (cs : List Char)

theorem startsComment_eq_false_of_ne (h : c ≠ '/') : startsComment (c :: cs) = false := by
  unfold startsComment
  split
  · rename_i hcons
    exact absurd (List.cons.inj hcons).1 h
  · rename_i hcons
    exact absurd (List.cons.inj hcons).1 h
  · rfl

theorem read?_eq_none_of_ne (h : c ≠ 's') : SuperToken.read? (c :: cs) = none := by
  unfold SuperToken.read?
  split
  · rename_i hcons
    exact absurd (List.cons.inj hcons).1 h
  · rename_i hcons
    exact absurd (List.cons.inj hcons).1 h
  · rfl

end Starts

end BemMarkup.Document

import BemMarkup.Result
import BemMarkup.Document.SuperCall
import BemMarkup.Document.Token

/-!
# Attribute lists

An attribute list stands in parentheses. Its entries are separated by commas; gaps and
comments may stand between all of its parts. An entry is an attribute, with or without a
value, or a super call. A list has at most one super call: once it is there, a further
`super` is read as the name of an attribute.

## Main statements

* `readEntry_consumes`: an entry takes at least one character, so the loop over the entries
  ends.
* `readEntries_eq`: that loop, as a chain of steps.
* `readAttributes_consumes`: a list is read by going over its text.
-/

namespace BemMarkup.Document

/-! ## Entries -/

/-- Reads the value of an attribute: a quoted text or a bare value. -/
def readValue (c : Cursor) : Except Fault (String × Cursor) :=
  match c.rest with
  | quote :: _ =>
    if isQuote quote then (readQuoted quote c).map fun (token, next) => (token.value, next)
    else readBare c
  | [] => readBare c

/-- Reads what stands behind the name of an attribute: an equals sign, a value and
filler, or nothing, which is the empty value. -/
def readAssignment (c : Cursor) : Except Fault (String × Cursor) :=
  if c.current? = some '=' then do
    let atValue ← skipFiller (c.past ['='])
    let (value, next) ← readValue atValue
    let last ← skipFiller next
    return (value, last)
  else .ok ("", c)

/-- Reads an attribute and the filler behind it. -/
def readAttribute (c : Cursor) : Except Fault (Attribute × Cursor) :=
  let name := NameClass.attribute.lexeme c.rest
  if name.isEmpty then .error ⟨c.offset, .invalidAttributeName⟩
  else do
    let next ← skipFiller (c.past name)
    let (value, last) ← readAssignment next
    return (⟨String.ofList name, value⟩, last)

/-- An entry of an attribute list. -/
inductive Entry where
  /-- A super call. -/
  | superCall (call : SuperCall)
  /-- An attribute with its value. -/
  | setting (entry : Attribute)
deriving DecidableEq, Repr

/-- The super call that an entry is, if it is one. -/
def Entry.superCall? : Entry → Option SuperCall
  | .superCall call => some call
  | .setting _ => none

/-- The attribute that an entry is, if it is one. -/
def Entry.setting? : Entry → Option Attribute
  | .superCall _ => none
  | .setting entry => some entry

/-- Reads an entry and the filler behind it. A super call is one only where
`superAllowed` holds. -/
def readEntry (superAllowed : Bool) (c : Cursor) : Except Fault (Entry × Cursor) :=
  match if superAllowed then readSuperCall? c else none with
  | some (call, next) => (skipFiller next).map fun last => (.superCall call, last)
  | none => (readAttribute c).map fun (entry, last) => (.setting entry, last)

theorem readValue_consumes {c d : Cursor} {value : String} (h : readValue c = .ok (value, d)) :
    ∃ text, c.Consumes text d := by
  unfold readValue at h
  split at h
  · rename_i quote cs hrest
    split at h
    · obtain ⟨⟨token, next⟩, hquoted, h⟩ := map_eq_ok_iff.1 h
      cases h
      exact ⟨_, readQuoted_consumes hrest hquoted⟩
    · exact ⟨_, readBare_consumes h⟩
  · exact ⟨_, readBare_consumes h⟩

theorem readAssignment_consumes {c d : Cursor} {value : String}
    (h : readAssignment c = .ok (value, d)) : ∃ text, c.Consumes text d := by
  unfold readAssignment at h
  split at h
  · rename_i hequals
    obtain ⟨atValue, hfiller, h⟩ := bind_eq_ok_iff.1 h
    obtain ⟨⟨value', next⟩, hvalue, h⟩ := bind_eq_ok_iff.1 h
    obtain ⟨last, hlast, h⟩ := bind_eq_ok_iff.1 h
    cases h
    obtain ⟨_, h1⟩ := skipFiller_consumes hfiller
    obtain ⟨_, h2⟩ := readValue_consumes hvalue
    obtain ⟨_, h3⟩ := skipFiller_consumes hlast
    exact ⟨_, (Cursor.past_current_consumes hequals).trans (h1.trans (h2.trans h3))⟩
  · cases h
    exact ⟨_, .refl c⟩

/-- An attribute is read by going over a text that is not empty. -/
theorem readAttribute_consumes {c d : Cursor} {entry : Attribute}
    (h : readAttribute c = .ok (entry, d)) : ∃ text, c.Consumes text d ∧ text ≠ [] := by
  unfold readAttribute at h
  dsimp only at h
  split at h
  · cases h
  · rename_i hname
    obtain ⟨next, hfiller, h⟩ := bind_eq_ok_iff.1 h
    obtain ⟨⟨value, last⟩, hvalue, h⟩ := bind_eq_ok_iff.1 h
    cases h
    obtain ⟨_, h1⟩ := skipFiller_consumes hfiller
    obtain ⟨_, h2⟩ := readAssignment_consumes hvalue
    exact ⟨_, (Cursor.past_consumes (NameClass.lexeme_prefix _ _)).trans (h1.trans h2),
      by simp_all⟩

/-- An entry is read by going over a text that is not empty. -/
theorem readEntry_consumes {c d : Cursor} {superAllowed : Bool} {entry : Entry}
    (h : readEntry superAllowed c = .ok (entry, d)) : ∃ text, c.Consumes text d ∧ text ≠ [] := by
  unfold readEntry at h
  split at h
  · rename_i call next hcall
    obtain ⟨last, hfiller, h⟩ := map_eq_ok_iff.1 h
    cases h
    split at hcall
    · obtain ⟨_, h1, ne⟩ := readSuperCall?_consumes hcall
      obtain ⟨_, h2⟩ := skipFiller_consumes hfiller
      exact ⟨_, h1.trans h2, by simp [ne]⟩
    · cases hcall
  · obtain ⟨⟨entry, last⟩, hentry, h⟩ := map_eq_ok_iff.1 h
    cases h
    exact readAttribute_consumes hentry

/-! ## Lists -/

/-- Reads the entries of an attribute list and its closing parenthesis. Once a super call
has been read, no other one is looked for. -/
def readEntries (superAllowed : Bool) (c : Cursor) : Except Fault (List Entry × Cursor) :=
  match _h : readEntry superAllowed c with
  | .error fault => .error fault
  | .ok (entry, next) =>
    if next.current? = some ')' then .ok ([entry], next.past [')'])
    else if _hcomma : next.current? = some ',' then
      match _h' : skipFiller (next.past [',']) with
      | .error fault => .error fault
      | .ok later =>
        (readEntries (superAllowed && entry.superCall?.isNone) later).map
          fun (entries, last) => (entry :: entries, last)
    else .error ⟨next.offset, .invalidAttributes⟩
termination_by c.rest.length
decreasing_by
  obtain ⟨_, h1, ne⟩ := readEntry_consumes _h
  obtain ⟨_, h2⟩ := skipFiller_consumes _h'
  exact Nat.lt_of_le_of_lt (h2.length_le) (Nat.lt_trans
    (Cursor.past_current_length_lt _hcomma) (h1.length_lt ne))

/-- The recursion of `readEntries` as a chain of steps. -/
theorem readEntries_eq (superAllowed : Bool) (c : Cursor) :
    readEntries superAllowed c = (do
      let (entry, next) ← readEntry superAllowed c
      if next.current? = some ')' then .ok ([entry], next.past [')'])
      else if next.current? = some ',' then do
        let later ← skipFiller (next.past [','])
        let (entries, last) ← readEntries (superAllowed && entry.superCall?.isNone) later
        .ok (entry :: entries, last)
      else .error ⟨next.offset, .invalidAttributes⟩) := by
  rw [readEntries]
  split
  · simp_all [bind, Except.bind]
  · rename_i entry next hread
    simp only [hread, bind, Except.bind]
    split
    · rfl
    · split
      · split <;> simp_all [Except.map]
      · rfl

/-- The entries of a list are read by going over their text. -/
theorem readEntries_consumes {c d : Cursor} {superAllowed : Bool} {entries : List Entry}
    (h : readEntries superAllowed c = .ok (entries, d)) : ∃ text, c.Consumes text d := by
  induction superAllowed, c using readEntries.induct generalizing entries d with
  | case1 superAllowed c fault hread =>
    rw [readEntries_eq, hread] at h
    cases h
  | case2 superAllowed c entry next hread hclose =>
    obtain ⟨_, h1, _⟩ := readEntry_consumes hread
    rw [readEntries_eq, hread] at h
    simp only [bind, Except.bind, hclose, if_true] at h
    cases h
    exact ⟨_, h1.trans (Cursor.past_current_consumes hclose)⟩
  | case3 superAllowed c entry next hread hclose hcomma fault hfiller =>
    rw [readEntries_eq, hread] at h
    simp [bind, Except.bind, hcomma, hfiller] at h
  | case4 superAllowed c entry next hread hclose hcomma later hfiller ih =>
    obtain ⟨_, h1, _⟩ := readEntry_consumes hread
    obtain ⟨_, h2⟩ := skipFiller_consumes hfiller
    rw [readEntries_eq, hread] at h
    simp only [bind, Except.bind, if_neg hclose, if_pos hcomma, hfiller] at h
    split at h
    · cases h
    · rename_i r hr
      cases h
      obtain ⟨_, h3⟩ := ih hr
      exact ⟨_, h1.trans ((Cursor.past_current_consumes hcomma).trans (h2.trans h3))⟩
  | case5 superAllowed c entry next hread hclose hcomma =>
    rw [readEntries_eq, hread] at h
    simp [bind, Except.bind, hclose, hcomma] at h

/-- Reads the attribute list that starts with the parenthesis at the cursor. -/
def readAttributeGroup (c : Cursor) : Except Fault (AttributeGroup × Cursor) := do
  let inner ← skipFiller (c.past ['('])
  if inner.current? = some ')' then
    let last := inner.past [')']
    .ok (⟨none, [], c.spanTo last⟩, last)
  else do
    let (entries, last) ← readEntries true inner
    .ok (⟨entries.findSome? Entry.superCall?, entries.filterMap Entry.setting?, c.spanTo last⟩,
      last)

/-- Reads the attribute list at the cursor and the gap behind it, if there is a list. -/
def readAttributes (c : Cursor) : Except Fault (Option AttributeGroup × Cursor) :=
  if c.current? = some '(' then
    (readAttributeGroup c).map fun (group, next) => (some group, next.skipGaps)
  else .ok (none, c)

theorem readAttributeGroup_consumes {c d : Cursor} {group : AttributeGroup}
    (hopen : c.current? = some '(') (h : readAttributeGroup c = .ok (group, d)) :
    ∃ text, c.Consumes text d := by
  obtain ⟨inner, hfiller, h⟩ := bind_eq_ok_iff.1 h
  obtain ⟨_, h1⟩ := skipFiller_consumes hfiller
  have h0 := (Cursor.past_current_consumes hopen).trans h1
  split at h
  · rename_i hclose
    cases h
    exact ⟨_, h0.trans (Cursor.past_current_consumes hclose)⟩
  · obtain ⟨⟨entries, last⟩, hentries, h⟩ := bind_eq_ok_iff.1 h
    cases h
    obtain ⟨_, h2⟩ := readEntries_consumes hentries
    exact ⟨_, h0.trans h2⟩

theorem readAttributes_consumes {c d : Cursor} {group : Option AttributeGroup}
    (h : readAttributes c = .ok (group, d)) : ∃ text, c.Consumes text d := by
  unfold readAttributes at h
  split at h
  · rename_i hopen
    obtain ⟨⟨group, next⟩, hgroup, h⟩ := map_eq_ok_iff.1 h
    cases h
    obtain ⟨_, h1⟩ := readAttributeGroup_consumes hopen hgroup
    exact ⟨_, h1.trans next.skipGaps_consumes⟩
  · cases h
    exact ⟨_, .refl c⟩

end BemMarkup.Document

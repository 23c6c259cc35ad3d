import BemMarkup.Proofs.Document.ViablePrefix

/-!
# Attributes without quotes

A value can be written without quotes if it does not end by itself: it has no comma, no closing
parenthesis and no line break, and no white space around it.  A list of such values is read as it
is written, entry by entry.  The name before a value is never taken for a super call, because the
equals sign behind it is not what a super call goes on with.

A value is read behind filler, and filler is looked for wherever a slash stands.  A slash that
starts no comment is therefore no start of a value but a mistake, which is reported behind the
slash.  A slash inside a value is nothing special.

## Main definitions

* `IsBareValue`: the texts that can be written without quotes.
* `unquotedSource`: an element with attributes whose values are not quoted.

## Main results

* `readEntries_unquoted`, `readEntries_slash`: the entries of such a list.
* `parse_unquoted`: the element is read, unless a value starts with a slash.
* `leadingSlash_is_refused`: a value that starts with a slash and is refused.
-/

namespace BemMarkup.Document

open Text

/-! ## Values without quotes -/

/-- A text that can stand without quotes: nothing ends it, nothing is trimmed from it, and it
starts neither a comment nor a quoted text. -/
structure IsBareValue (value : List Char) : Prop where
  ne_nil : value ≠ []
  trimmed : trim value = value
  head : Heads (fun c => isGap c = false ∧ isQuote c = false) value
  plain : ∀ c ∈ value, c ≠ ',' ∧ c ≠ ')' ∧ c ≠ '\r' ∧ c ≠ '\n'
  uncommented : startsComment value = false

/-- An attribute that can be written without quotes. -/
structure Attribute.IsUnquoted (entry : Attribute) : Prop where
  name : NameClass.attribute.IsName entry.name.toList
  value : IsBareValue entry.value.toList

/-- An attribute as it is written without quotes. -/
def Attribute.unquoted (entry : Attribute) : String := entry.name ++ "=" ++ entry.value

/-- An element that has nothing but attributes without quotes. -/
def unquotedSource (entries : List Attribute) : String :=
  "p(" ++ ",".intercalate (entries.map Attribute.unquoted) ++ ")"

/-- The value of an entry starts with a slash. -/
def Attribute.StartsWithSlash (entry : Attribute) : Prop := entry.value.toList.head? = some '/'

/-- A character that separates the entries of a list, or closes it. -/
def IsListMark (mark : Char) : Prop := mark = ',' ∨ mark = ')'

section Values

variable {c : Cursor} {value rest : List Char} {mark : Char}

theorem IsListMark.facts (h : IsListMark mark) :
    isGap mark = false ∧ mark ≠ '/' ∧ mark ≠ '*' ∧ isBareChar mark = false := by
  rcases h with rfl | rfl <;> decide

theorem IsBareValue.isBareChar (h : IsBareValue value) : ∀ c ∈ value, isBareChar c = true := by
  intro c hc
  obtain ⟨hcomma, hclose, hreturn, hfeed⟩ := h.plain c hc
  simp [Document.isBareChar, isBreak, hcomma, hclose, hreturn, hfeed]

/-- A value is read up to the mark behind it. -/
theorem readBare_eq (h : IsBareValue value) (hmark : IsListMark mark)
    (hrest : c.rest = value ++ mark :: rest) :
    readBare c = .ok (String.ofList value, c.past value) := by
  have htake : c.rest.takeWhile isBareChar = value := by
    rw [hrest, List.takeWhile_append_of_pos h.isBareChar,
      List.takeWhile_cons_of_neg (by simp [hmark.facts]), List.append_nil]
  have hnext : (c.past value).rest = mark :: rest := Cursor.rest_past hrest
  unfold readBare
  dsimp only
  rw [htake, hnext, h.trimmed]
  rfl

theorem readValue_unquoted (h : IsBareValue value) (hmark : IsListMark mark)
    (hrest : c.rest = value ++ mark :: rest) :
    readValue c = .ok (String.ofList value, c.past value) := by
  obtain ⟨first, others, rfl⟩ := List.exists_cons_of_ne_nil h.ne_nil
  rw [readValue_of_plain, readBare_eq h hmark hrest]
  rw [hrest]
  exact .cons (h.head first rfl).2 _

/-- A value that does not start with a slash is assigned as it is written. -/
theorem readAssignment_unquoted (h : IsBareValue value) (hslash : value.head? ≠ some '/')
    (hmark : IsListMark mark) (hrest : c.rest = '=' :: (value ++ mark :: rest)) :
    readAssignment c = .ok (String.ofList value, c.past ('=' :: value)) := by
  have hat : (c.past ['=']).rest = value ++ mark :: rest := Cursor.rest_past hrest
  have hfiller : skipFiller (c.past ['=']) = .ok (c.past ['=']) := by
    obtain ⟨first, others, rfl⟩ := List.exists_cons_of_ne_nil h.ne_nil
    exact skipFiller_of_mark (h.head first rfl).1 (by simpa using hslash) hat
  have hlast : skipFiller ((c.past ['=']).past value) = .ok ((c.past ['=']).past value) :=
    skipFiller_of_mark hmark.facts.1 hmark.facts.2.1 (Cursor.rest_past hat)
  rw [readAssignment_of_parts hrest hfiller (readValue_unquoted h hmark hat) hlast,
    Cursor.past_past]
  rfl

/-- A slash at the start of a value is taken for a comment, which it is not. -/
theorem readAssignment_slash (h : IsBareValue ('/' :: value)) (hmark : IsListMark mark)
    (hrest : c.rest = '=' :: ('/' :: (value ++ mark :: rest))) :
    readAssignment c =
      .error ⟨c.offset + byteLength ['='] + 1, .expected "/" (found (value ++ mark :: rest))⟩ := by
  have hat : (c.past ['=']).rest = '/' :: (value ++ mark :: rest) := Cursor.rest_past hrest
  have hgapless : (c.past ['=']).skipGaps = c.past ['='] := by
    refine skipGaps_of_gapless ?_
    rw [hat]
    exact .cons (by decide) _
  have hlone : startsComment (c.past ['=']).rest = false := by
    have huncommented := h.uncommented
    rw [hat]
    cases value with
    | nil => rcases hmark with rfl | rfl <;> rfl
    | cons second others =>
        unfold startsComment at huncommented ⊢
        split <;> simp_all
  have hfiller : skipFiller (c.past ['=']) =
      .error ⟨c.offset + byteLength ['='] + 1, .expected "/" (found (value ++ mark :: rest))⟩ := by
    rw [skipFiller_of_comment (by rw [hgapless]; exact Cursor.current?_of_rest_eq hat), hgapless,
      readComment_lone hat hlone]
    rfl
  rw [readAssignment, if_pos (Cursor.current?_of_rest_eq hrest), hfiller]
  rfl

end Values

/-! ## Entries -/

section Entries

variable {c : Cursor} {entry : Attribute} {entries : List Attribute}
variable {rest : List Char} {mark : Char}

/-- The text of entries with commas between them. -/
def unquotedEntries (entries : List Attribute) : List Char :=
  [','].intercalate (entries.map fun entry => entry.unquoted.toList)

theorem unquotedSource_toList (entries : List Attribute) :
    (unquotedSource entries).toList = 'p' :: '(' :: (unquotedEntries entries ++ [')']) := by
  simp [unquotedSource, unquotedEntries, String.toList_intercalate, Function.comp_def]

theorem unquoted_toList (entry : Attribute) :
    entry.unquoted.toList = entry.name.toList ++ '=' :: entry.value.toList := by
  simp [Attribute.unquoted]

/-- An entry is read by reading what is assigned to its name. -/
theorem readEntry_assigned {name : List Char} (superAllowed : Bool)
    (hname : NameClass.attribute.IsName name) (hrest : c.rest = name ++ '=' :: rest) :
    readEntry superAllowed c =
      (readAssignment (c.past name)).map fun (value, last) =>
        (.setting ⟨String.ofList name, value⟩, last) := by
  have hstops : Stops ('=' :: rest) := .cons (by decide) rest
  have hlexeme : NameClass.attribute.lexeme c.rest = name := by
    rw [hrest]
    exact lexeme_append hname (heads_of_stops hstops)
  have hfiller : skipFiller (c.past name) = .ok (c.past name) :=
    skipFiller_of_mark (by decide) (by decide) (Cursor.rest_past hrest)
  unfold readEntry readAttribute
  dsimp only
  rw [readSuperCall?_name hname hstops hrest, ite_self, hlexeme,
    if_neg (by simpa using ne_nil_of_isName hname), hfiller]
  cases hassigned : readAssignment (c.past name) <;>
    simp [bind, Except.bind, Except.map, pure, Except.pure, hassigned]

/-- An entry whose value does not start with a slash is read as it is written. -/
theorem readEntry_unquoted (superAllowed : Bool) (h : entry.IsUnquoted)
    (hslash : ¬ entry.StartsWithSlash) (hmark : IsListMark mark)
    (hrest : c.rest = entry.unquoted.toList ++ mark :: rest) :
    readEntry superAllowed c = .ok (.setting entry, c.past entry.unquoted.toList) := by
  have hall : c.rest = entry.name.toList ++ '=' :: (entry.value.toList ++ mark :: rest) := by
    rw [hrest, unquoted_toList]
    simp
  rw [readEntry_assigned superAllowed h.name hall,
    readAssignment_unquoted h.value hslash hmark (Cursor.rest_past hall), unquoted_toList,
    ← Cursor.past_past]
  simp [Except.map]

/-- Of an entry whose value starts with a slash, the slash is taken for a comment. -/
theorem readEntry_slash (superAllowed : Bool) (h : entry.IsUnquoted)
    (hslash : entry.StartsWithSlash) (hmark : IsListMark mark)
    (hrest : c.rest = entry.unquoted.toList ++ mark :: rest) :
    ∃ before after, entry.unquoted.toList = before ++ '/' :: after ∧
      readEntry superAllowed c =
        .error ⟨c.offset + byteLength before + 1, .expected "/" (found (after ++ mark :: rest))⟩ := by
  obtain ⟨after, hvalue⟩ := List.head?_eq_some_iff.1 hslash
  have hall : c.rest = entry.name.toList ++ '=' :: ('/' :: (after ++ mark :: rest)) := by
    rw [hrest, unquoted_toList, hvalue]
    simp
  refine ⟨entry.name.toList ++ ['='], after, by rw [unquoted_toList, hvalue]; simp, ?_⟩
  rw [readEntry_assigned superAllowed h.name hall,
    readAssignment_slash (hvalue ▸ h.value) hmark (Cursor.rest_past hall), byteLength_append,
    ← Nat.add_assoc]
  rfl

theorem unquotedEntries_cons_cons (entry other : Attribute) (entries : List Attribute) :
    unquotedEntries (entry :: other :: entries) =
      entry.unquoted.toList ++ ',' :: unquotedEntries (other :: entries) := by
  simp [unquotedEntries, List.intercalate_cons_cons]

/-- What is written of entries starts with a letter or an underscore. -/
theorem unquotedEntries_head (h : entry.IsUnquoted) (entries : List Attribute) :
    ∃ first others, unquotedEntries (entry :: entries) = first :: others ∧
      isGap first = false ∧ first ≠ '/' ∧ first ≠ ')' := by
  obtain ⟨first, others, hname, hstart⟩ := head_of_isName h.name
  have hpart := isNameChar_of_isStart hstart
  have hne : ∀ d, isNameChar d = false → first ≠ d := by
    rintro d hd rfl
    rw [hpart] at hd
    cases hd
  have hfacts := And.intro (isGap_of_isNameChar hpart)
    (And.intro (hne '/' (by decide)) (hne ')' (by decide)))
  cases entries with
  | nil =>
      exact ⟨first, others ++ '=' :: entry.value.toList,
        by simp [unquotedEntries, unquoted_toList, hname], hfacts⟩
  | cons other entries =>
      exact ⟨first, _, by rw [unquotedEntries_cons_cons, unquoted_toList, hname]; rfl, hfacts⟩

/-- Behind an entry and a comma, the other entries are read. -/
theorem readEntries_cons {other : Attribute} (h : entry.IsUnquoted) (hother : other.IsUnquoted)
    (hslash : ¬ entry.StartsWithSlash)
    (hrest : c.rest = unquotedEntries (entry :: other :: entries) ++ rest) :
    readEntries true c =
      (readEntries true (c.past (entry.unquoted.toList ++ [',']))).map
        fun (others, last) => (.setting entry :: others, last) := by
  have hall : c.rest =
      entry.unquoted.toList ++ ',' :: (unquotedEntries (other :: entries) ++ rest) := by
    rw [hrest, unquotedEntries_cons_cons]
    simp
  have hcomma := Cursor.rest_past hall
  obtain ⟨first, others, hfirst, hgap, hne, -⟩ := unquotedEntries_head hother entries
  have hlater : ((c.past entry.unquoted.toList).past [',']).rest = first :: (others ++ rest) := by
    rw [Cursor.rest_past hcomma, hfirst]
    rfl
  rw [readEntries_eq, readEntry_unquoted true h hslash (.inl rfl) hall]
  simp only [bind, Except.bind, Cursor.current?_of_rest_eq hcomma, if_true]
  rw [if_neg (by decide), skipFiller_of_mark hgap hne hlater, Cursor.past_past]
  have hflag : (true && (Entry.setting entry).superCall?.isNone) = true := rfl
  dsimp only
  rw [hflag]
  cases readEntries true (c.past (entry.unquoted.toList ++ [','])) <;> rfl

/-- Entries whose values do not start with a slash are read as they are written. -/
theorem readEntries_unquoted (hne : entries ≠ []) (h : ∀ entry ∈ entries, entry.IsUnquoted)
    (hslash : ∀ entry ∈ entries, ¬ entry.StartsWithSlash)
    (hrest : c.rest = unquotedEntries entries ++ ')' :: rest) :
    readEntries true c =
      .ok (entries.map .setting, c.past (unquotedEntries entries ++ [')'])) := by
  induction entries generalizing c with
  | nil => exact absurd rfl hne
  | cons entry entries ih =>
      obtain ⟨hentry, hothers⟩ := List.forall_mem_cons.1 h
      obtain ⟨hentrySlash, hothersSlash⟩ := List.forall_mem_cons.1 hslash
      cases entries with
      | nil =>
          have hlast : unquotedEntries [entry] = entry.unquoted.toList := by
            simp [unquotedEntries]
          rw [hlast] at hrest ⊢
          have hclose := Cursor.current?_of_rest_eq (Cursor.rest_past hrest)
          rw [readEntries_eq, readEntry_unquoted true hentry hentrySlash (.inr rfl) hrest,
            ← Cursor.past_past]
          simp only [bind, Except.bind, hclose, if_true]
          rfl
      | cons other entries =>
          have hall : c.rest = (entry.unquoted.toList ++ [',']) ++
              (unquotedEntries (other :: entries) ++ ')' :: rest) := by
            rw [hrest, unquotedEntries_cons_cons]
            simp
          rw [readEntries_cons hentry (hothers other (by simp)) hentrySlash hrest,
            ih (by simp) hothers hothersSlash (Cursor.rest_past hall), unquotedEntries_cons_cons,
            Cursor.past_past]
          simp [Except.map]

/-- Entries, a value of which starts with a slash, are read up to the first such value. -/
theorem readEntries_slash (h : ∀ entry ∈ entries, entry.IsUnquoted)
    (hslash : ∃ entry ∈ entries, entry.StartsWithSlash)
    (hrest : c.rest = unquotedEntries entries ++ ')' :: rest) :
    ∃ before after, c.rest = before ++ '/' :: after ∧
      readEntries true c =
        .error ⟨c.offset + byteLength before + 1, .expected "/" (found after)⟩ := by
  induction entries generalizing c with
  | nil =>
      obtain ⟨_, hmem, -⟩ := hslash
      cases hmem
  | cons entry entries ih =>
      obtain ⟨hentry, hothers⟩ := List.forall_mem_cons.1 h
      by_cases hentrySlash : entry.StartsWithSlash
      · -- the text behind the entry starts with a comma or with the closing parenthesis
        obtain ⟨mark, tail, hmark, hall⟩ : ∃ mark tail, IsListMark mark ∧
            c.rest = entry.unquoted.toList ++ mark :: tail := by
          cases entries with
          | nil => exact ⟨')', rest, .inr rfl, by simpa [unquotedEntries] using hrest⟩
          | cons other entries =>
              refine ⟨',', unquotedEntries (other :: entries) ++ ')' :: rest, .inl rfl, ?_⟩
              rw [hrest, unquotedEntries_cons_cons]
              simp
        obtain ⟨before, after, hsplit, hread⟩ := readEntry_slash true hentry hentrySlash hmark hall
        refine ⟨before, after ++ mark :: tail, by rw [hall, hsplit]; simp, ?_⟩
        rw [readEntries_eq, hread]
        rfl
      · have hslash' : ∃ entry ∈ entries, entry.StartsWithSlash := by
          obtain ⟨entry', hmem, hstarts⟩ := hslash
          rcases List.mem_cons.1 hmem with rfl | hmem
          · exact absurd hstarts hentrySlash
          · exact ⟨entry', hmem, hstarts⟩
        cases entries with
        | nil =>
            obtain ⟨_, hmem, -⟩ := hslash'
            cases hmem
        | cons other entries =>
            have hall : c.rest = (entry.unquoted.toList ++ [',']) ++
                (unquotedEntries (other :: entries) ++ ')' :: rest) := by
              rw [hrest, unquotedEntries_cons_cons]
              simp
            obtain ⟨before, after, hsplit, hread⟩ := ih hothers hslash' (Cursor.rest_past hall)
            refine ⟨(entry.unquoted.toList ++ [',']) ++ before, after, ?_, ?_⟩
            · rw [hall, ← Cursor.rest_past hall, hsplit]
              simp
            · rw [readEntries_cons hentry (hothers other (by simp)) hentrySlash hrest, hread,
                byteLength_append, ← Nat.add_assoc]
              rfl

end Entries

/-! ## Documents -/

section Documents

variable {c d : Cursor} {entries : List Attribute} {tail : List Char} {group : AttributeGroup}
  {fault : Fault}

/-- A list of entries that are read is closed behind them. -/
theorem readAttributeGroup_unquoted (hne : entries ≠ [])
    (h : ∀ entry ∈ entries, entry.IsUnquoted)
    (hrest : c.rest = '(' :: (unquotedEntries entries ++ [')'])) :
    readAttributeGroup c = (readEntries true (c.past ['('])).map fun (read, last) =>
      (⟨read.findSome? Entry.superCall?, read.filterMap Entry.setting?, c.spanTo last⟩, last) := by
  cases entries with
  | nil => exact absurd rfl hne
  | cons entry entries =>
      obtain ⟨first, others, hfirst, hgap, hslash, hclose⟩ :=
        unquotedEntries_head (h entry (by simp)) entries
      have hat : (c.past ['(']).rest = first :: (others ++ [')']) := by
        rw [Cursor.rest_past hrest, hfirst]
        rfl
      unfold readAttributeGroup
      rw [skipFiller_of_mark hgap hslash hat]
      simp only [bind, Except.bind, Cursor.current?_of_rest_eq hat]
      rw [if_neg (by simpa using hclose)]
      cases readEntries true (c.past ['(']) <;> rfl

/-- An element that is a tag and an attribute list. -/
theorem readElement_tag (hrest : c.rest = 'p' :: '(' :: tail) :
    readElement c = (readAttributeGroup (c.past ['p'])).map fun (group, next) =>
      if next.skipGaps.current? = some '\x7b' then
        (.opening ⟨false, some "p", none, some group⟩, next.skipGaps.past ['\x7b'])
      else
        (.leaf (Heading.node ⟨false, some "p", none, some group⟩ none c next.skipGaps),
          next.skipGaps) := by
  have hat : (c.past ['p']).rest = '(' :: tail := Cursor.rest_past hrest
  have hopen := Cursor.current?_of_rest_eq hat
  have hname : NameClass.tag.IsName ['p'] := .inl ⟨'p', [], rfl, by decide, by simp⟩
  have hlexeme : NameClass.tag.lexeme c.rest = ['p'] := by
    rw [hrest]
    exact lexeme_append hname (.cons (by decide) tail)
  have hmark : readMark c = (false, c) := by
    rw [readMark, if_neg]
    rw [Cursor.current?_of_rest_eq hrest]
    decide
  have htag : readTag c = (some "p", c.past ['p']) := by
    have hskip : (c.past ['p']).skipGaps = c.past ['p'] :=
      skipGaps_of_gapless (by rw [hat]; exact .cons (by decide) tail)
    unfold readTag
    rw [hlexeme]
    simp [hskip]
  have hnames : readNames (c.past ['p']) = (none, c.past ['p']) := by
    simp [readNames, hopen]
  unfold readElement readHeading
  dsimp only
  rw [hmark, htag, hnames, readAttributes, if_pos hopen]
  cases readAttributeGroup (c.past ['p']) <;> rfl

/-- A source that starts with the tag starts with an element. -/
theorem readItem_tag {source : String} (hsource : source.toList = 'p' :: tail) :
    (Cursor.start source.toList).skipGaps = .start source.toList ∧
      readItem false (.start source.toList) = readElement (.start source.toList) := by
  have hrest : (Cursor.start source.toList).rest = 'p' :: tail := hsource
  refine ⟨skipGaps_of_gapless (by rw [hrest]; exact .cons (by decide) tail), ?_⟩
  refine readItem_element false hrest (by decide) ?_ ?_
  · rw [hrest]
    exact startsComment_eq_false_of_ne tail (by decide)
  · rw [hrest]
    exact read?_eq_none_of_ne tail (by decide)

/-- Where the element at the start of a source is at fault, the source is. -/
theorem parse_of_readElement_error {source : String} (hsource : source.toList = 'p' :: tail)
    (h : readElement (.start source.toList) = .error fault) :
    parse source = .error (fault.locate source) := by
  obtain ⟨hskip, hitem⟩ := readItem_tag hsource
  have hcurrent : (Cursor.start source.toList).current? = some 'p' :=
    Cursor.current?_of_rest_eq hsource
  have hcomment : startsComment (Cursor.start source.toList).rest = false := by
    rw [Cursor.start, hsource]
    exact startsComment_eq_false_of_ne tail (by decide)
  have hleading : readLeadingComments (.start source.toList) = .ok ([], .start source.toList) := by
    rw [readLeadingComments, hskip, if_neg (by simp [hcomment])]
  have hdeclaration :
      readDeclaration (.start source.toList) = .ok (none, .start source.toList) := by
    rw [readDeclaration, if_neg (by rw [hcurrent]; decide)]
  have hcontent : readContent (.start (.start source.toList)) = .error fault := by
    have hfirst : (Progress.start (.start source.toList)).cursor.skipGaps.current? = some 'p' := by
      rw [Progress.start, hskip, hcurrent]
    refine readContent_of_fault (step_of_readItem_error hfirst (by decide) ?_)
    rw [Progress.start, hskip]
    exact hitem.trans h
  unfold parse readBlock
  rw [hleading]
  simp only [bind, Except.bind, hdeclaration, hcontent]
  rfl

/-- The element that is read: its attributes are the entries, as they are written. -/
def unquotedElement (entries : List Attribute) : Element where
  heading :=
    { isHelper := false
      tag := some "p"
      names := none
      attributes := some
        { superCall := none
          attributes := entries
          span := ⟨1, String.ofList ('(' :: (unquotedEntries entries ++ [')']))⟩ } }
  content := none
  span := ⟨0, unquotedSource entries⟩

/-- The entries of a list are its attributes, and none of them is a super call. -/
theorem settings_of_entries (entries : List Attribute) :
    (entries.map Entry.setting).findSome? Entry.superCall? = none ∧
      (entries.map Entry.setting).filterMap Entry.setting? = entries := by
  induction entries with
  | nil => exact ⟨rfl, rfl⟩
  | cons entry entries ih => exact ⟨ih.1, congrArg (entry :: ·) ih.2⟩

/-- The node that is made of the tag and of all that is written behind it is the element. -/
theorem node_unquoted {list : List Char} (hlist : '(' :: (unquotedEntries entries ++ [')']) = list)
    (hstart : Cursor.start (unquotedSource entries).toList = c) (hrest : c.rest = ['p'] ++ list) :
    Heading.node ⟨false, some "p", none, some ⟨none, entries,
      (c.past ['p']).spanTo ((c.past ['p']).past list)⟩⟩ none c ((c.past ['p']).past list) =
        .element (unquotedElement entries) := by
  have hsource : unquotedSource entries = String.ofList (['p'] ++ list) := by
    rw [← String.ofList_toList (s := unquotedSource entries), unquotedSource_toList, ← hlist]
    rfl
  have hat : (c.past ['p']).rest = list ++ [] := by
    rw [List.append_nil]
    exact Cursor.rest_past hrest
  have hfront := Cursor.past_consumes_of_rest _ hrest
  have hback := Cursor.past_consumes_of_rest _ hat
  have hsolid : Solid (['p'] ++ list) := by
    rw [← hlist]
    exact (Solid.singleton (c := 'p') (by decide)).around ('(' :: unquotedEntries entries)
      (Solid.singleton (c := ')') (by decide))
  have htrim : trim (['p'] ++ list) = ['p'] ++ list := by
    simpa using hsolid.trim_append []
  rw [Heading.node, (hfront.trans hback).upTo_eq, htrim, hback.spanTo_eq, unquotedElement, hlist,
    hsource, ← hstart]
  rfl

/-- An element whose entries are read is read up to the end of its source. -/
theorem readElement_unquoted (hne : entries ≠ []) (h : ∀ entry ∈ entries, entry.IsUnquoted)
    (hslash : ∀ entry ∈ entries, ¬ entry.StartsWithSlash) :
    ∃ last, readElement (.start (unquotedSource entries).toList) =
        .ok (.leaf (.element (unquotedElement entries)), last) ∧ last.rest = [] := by
  have hrest : (Cursor.start (unquotedSource entries).toList).rest =
      ['p'] ++ '(' :: (unquotedEntries entries ++ [')']) := unquotedSource_toList entries
  generalize hstart : Cursor.start (unquotedSource entries).toList = c at hrest
  have hopen := Cursor.rest_past hrest
  have hgroup := readAttributeGroup_unquoted hne h hopen
  have hread := readEntries_unquoted hne h hslash
    (c := (c.past ['p']).past ['(']) (Cursor.rest_past hopen)
  have htag := readElement_tag hrest
  have hnode := node_unquoted rfl hstart hrest
  rw [Cursor.past_past (c.past ['p']), List.singleton_append] at hread
  generalize '(' :: (unquotedEntries entries ++ [')']) = list at hrest hopen hread hnode
  have hlast : ((c.past ['p']).past list).rest = [] :=
    Cursor.rest_past (hopen.trans (List.append_nil list).symm)
  have hskip : ((c.past ['p']).past list).skipGaps = (c.past ['p']).past list :=
    skipGaps_of_gapless (by rw [hlast]; exact .nil)
  refine ⟨_, ?_, hlast⟩
  rw [htag, hgroup, hread, ← hnode]
  simp only [Except.map, settings_of_entries, hskip]
  rw [Cursor.current?, hlast]
  rfl

/-- **Attributes without quotes.**  Attributes whose values need no quotes are read as they are
written, in their order and with no super call among them, unless a value starts with a slash.
Then the first such slash is taken for the start of a comment, which is missed behind it. -/
theorem parse_unquoted (hne : entries ≠ []) (h : ∀ entry ∈ entries, entry.IsUnquoted) :
    ((∀ entry ∈ entries, ¬ entry.StartsWithSlash) →
      parse (unquotedSource entries) =
        .ok ⟨none, none, [.element (unquotedElement entries)], 0, unquotedSource entries⟩) ∧
    ((∃ entry ∈ entries, entry.StartsWithSlash) →
      ∃ before after error, (unquotedSource entries).toList = before ++ '/' :: after ∧
        parse (unquotedSource entries) = .error error ∧ error.offset = byteLength before + 1 ∧
        error.kind = .expected "/" (found after)) := by
  have htext := unquotedSource_toList entries
  have hrest : (Cursor.start (unquotedSource entries).toList).rest =
      ['p'] ++ '(' :: (unquotedEntries entries ++ [')']) := htext
  constructor
  · intro hslash
    obtain ⟨last, hread, hend⟩ := readElement_unquoted hne h hslash
    have hitem : readItem false (Cursor.start (unquotedSource entries).toList).skipGaps =
        .ok (.leaf (.element (unquotedElement entries)), last) := by
      rw [(readItem_tag htext).1, (readItem_tag htext).2, hread]
    exact parse_of_reads (.leaf hitem .nil) (by rw [Cursor.skipGaps_rest, hend]; rfl)
  · intro hslash
    have hlist := Cursor.rest_past hrest
    have hentries : (((Cursor.start (unquotedSource entries).toList).past ['p']).past ['(']).rest =
        unquotedEntries entries ++ [')'] := Cursor.rest_past hlist
    obtain ⟨before, after, hsplit, hread⟩ := readEntries_slash h hslash hentries
    have helement : readElement (.start (unquotedSource entries).toList) =
        .error ⟨byteLength ('p' :: '(' :: before) + 1, .expected "/" (found after)⟩ := by
      rw [readElement_tag hrest, readAttributeGroup_unquoted hne h hlist, hread]
      simp [Except.map, Cursor.start, Nat.add_assoc]
    have hparse := parse_of_readElement_error htext helement
    refine ⟨'p' :: '(' :: before, after, _, ?_, hparse, rfl, rfl⟩
    rw [htext, ← hentries, hsplit]
    rfl

/-- Values may hold slashes and quotes, and a name may look like the start of a super call. -/
theorem superAttribute_is_read :
    ∃ entries : List Attribute, entries ≠ [] ∧ (∀ entry ∈ entries, entry.IsUnquoted) ∧
      unquotedSource entries = "p(super=a/b=\"c',x=y!)" ∧
      parse (unquotedSource entries) =
        .ok ⟨none, none, [.element (unquotedElement entries)], 0, unquotedSource entries⟩ := by
  have hsuper : NameClass.attribute.IsName "super".toList :=
    .inl ⟨'s', "uper".toList, rfl, by decide, by simp [isNameChar]⟩
  have hletter : NameClass.attribute.IsName "x".toList := .inl ⟨'x', [], rfl, by decide, by simp⟩
  have hvalue : IsBareValue "a/b=\"c'".toList :=
    ⟨by decide, by decide, .cons (by decide) _, by simp, rfl⟩
  have hvalue' : IsBareValue "y!".toList :=
    ⟨by decide, by decide, .cons (by decide) _, by simp, rfl⟩
  have hentries : ∀ entry ∈ [⟨"super", "a/b=\"c'"⟩, ⟨"x", "y!"⟩],
      Attribute.IsUnquoted entry ∧ ¬ entry.StartsWithSlash := by
    rintro entry (_ | ⟨_, _ | ⟨_, ⟨⟩⟩⟩)
    · exact ⟨⟨hsuper, hvalue⟩, by simp [Attribute.StartsWithSlash]⟩
    · exact ⟨⟨hletter, hvalue'⟩, by simp [Attribute.StartsWithSlash]⟩
  exact ⟨_, by simp, fun entry hentry => (hentries entry hentry).1, rfl,
    (parse_unquoted (by simp) fun entry hentry => (hentries entry hentry).1).1
      fun entry hentry => (hentries entry hentry).2⟩

/-- A value that starts with a slash is refused, though nothing in it needs a quote. -/
theorem leadingSlash_is_refused :
    (⟨"a", "/x"⟩ : Attribute).IsUnquoted ∧ unquotedSource [⟨"a", "/x"⟩] = "p(a=/x)" ∧
      ∃ error, parse (unquotedSource [⟨"a", "/x"⟩]) = .error error ∧ error.offset = 5 ∧
        error.kind = .expected "/" "x" := by
  have hname : NameClass.attribute.IsName "a".toList := .inl ⟨'a', [], rfl, by decide, by simp⟩
  have hvalue : IsBareValue "/x".toList :=
    ⟨by decide, by decide, .cons (by decide) _, by simp, rfl⟩
  have hread : (match parse (unquotedSource [⟨"a", "/x"⟩]) with
      | .error error => some (error.offset, error.kind)
      | .ok _ => none) = some (5, ParseErrorKind.expected "/" "x") := by decide +kernel
  refine ⟨⟨hname, hvalue⟩, rfl, ?_⟩
  cases hparse : parse (unquotedSource [⟨"a", "/x"⟩]) with
  | ok block => simp [hparse] at hread
  | error error =>
      rw [hparse] at hread
      obtain ⟨hoffset, hkind⟩ := Prod.mk.inj (Option.some.inj hread)
      exact ⟨error, rfl, hoffset, hkind⟩

end Documents

end BemMarkup.Document

import Mathlib.Data.List.Nodup
import Mathlib.Data.List.ReduceOption
import BemMarkup.Proofs.Document.Characters
import BemMarkup.Proofs.Interpreter.Agreement
import BemMarkup.Proofs.Session.Classes

/-!
# Opening tags are read back

An opening tag is put together from pieces: names as they are, values between quotes, and
classes that are filled in when a template is rendered.  This module reads it back.  The
reader is a plain one.  It takes a name up to the first character that cannot belong to one,
and a value up to the next quote, and it knows the five entities that escaping leaves and
nothing else about how the tag was made.  What it reads is therefore what is in the tag.

All markup of a tag has one form: each attribute is written with its value escaped.  This
holds for the classes too, since no character in them needs escaping, so an attribute that
joins classes to a declared class is the escaped form of their plain text.

## Main definitions

* `StartTag.read?`: the plain reader.
* `shownAttributes`: the attributes that an opening tag shows.

## Main results

* `StartTag.read?_write`: a tag that is written is read back, up to where it ends.
* `openMarkup_eq_write`: an opening tag is written like the attributes that it shows.
* `openingTag_read`: the reader gives the tag and its attributes, each of them once.
-/

namespace BemMarkup

open Document

/-! ## Entities -/

namespace Html

/-- The text that stands in an attribute value, its entities replaced. -/
def decodeChars : List Char → List Char
  | '&' :: 'a' :: 'm' :: 'p' :: ';' :: cs => '&' :: decodeChars cs
  | '&' :: 'l' :: 't' :: ';' :: cs => '<' :: decodeChars cs
  | '&' :: 'g' :: 't' :: ';' :: cs => '>' :: decodeChars cs
  | '&' :: 'q' :: 'u' :: 'o' :: 't' :: ';' :: cs => '"' :: decodeChars cs
  | '&' :: '#' :: '3' :: '9' :: ';' :: cs => '\'' :: decodeChars cs
  | c :: cs => c :: decodeChars cs
  | [] => []

theorem decodeChars_escapeChar_append (c : Char) (cs : List Char) :
    decodeChars (escapeChar c ++ cs) = c :: decodeChars cs := by
  unfold escapeChar
  split
  case h_6 hamp _ _ _ _ =>
      rw [List.singleton_append, decodeChars] <;>
        · intros
          exact absurd ‹_› hamp
  all_goals simp [decodeChars]

/-- Decoding takes back what escaping does. -/
theorem decodeChars_escapeChars (cs : List Char) : decodeChars (escapeChars cs) = cs := by
  induction cs with
  | nil => rfl
  | cons c cs ih => rw [escapeChars_cons, decodeChars_escapeChar_append, ih]

/-- A character that is written as itself. -/
def IsPlain (c : Char) : Prop := escapeChar c = [c]

/-- A text of plain characters is written as it is. -/
theorem escapeChars_of_plain {cs : List Char} (h : ∀ c ∈ cs, IsPlain c) : escapeChars cs = cs := by
  induction cs with
  | nil => rfl
  | cons c cs ih =>
      obtain ⟨hc, hcs⟩ := List.forall_mem_cons.1 h
      rw [escapeChars_cons, hc, ih hcs, List.singleton_append]

@[simp] theorem escape_empty : escape "" = "" := rfl

theorem escape_append (a b : String) : escape (a ++ b) = escape a ++ escape b := by
  simp [escape, String.ofList_append]

theorem escape_intercalate (a : String) (texts : List String) :
    escape (a.intercalate texts) = (escape a).intercalate (texts.map escape) := by
  induction texts with
  | nil => simp
  | cons text texts ih =>
      by_cases h : texts = []
      · subst h
        simp
      · rw [String.intercalate_cons_of_ne_nil h, escape_append, escape_append, ih, List.map_cons,
          String.intercalate_cons_of_ne_nil (by simpa using h)]

theorem escape_of_plain {text : String} (h : ∀ c ∈ text.toList, IsPlain c) :
    escape text = text := by
  rw [escape, escapeChars_of_plain h, String.ofList_toList]

/-- What a value is written as is empty only if the value is. -/
theorem escape_eq_empty_iff {text : String} : escape text = "" ↔ text = "" := by
  constructor
  · intro h
    have hlist := decodeChars_escapeChars text.toList
    rw [show escapeChars text.toList = [] by simpa [escape] using h] at hlist
    exact String.toList_eq_nil_iff.1 hlist.symm
  · rintro rfl
    rfl

end Html

/-! ## A plain reader of tags -/

/-- Whether a character ends the name of a tag or of an attribute. -/
def endsName (c : Char) : Bool := Text.isGap c || "/>=<\"\x27".toList.contains c

/-- The name at the start of a text, and what is behind it. -/
def readName? (cs : List Char) : Option (String × List Char) :=
  let name := cs.takeWhile fun c => !endsName c
  if name.isEmpty then none else some (String.ofList name, cs.drop name.length)

/-- The value at the start of a text, which goes up to the next quote, and what is behind
that. -/
def readValue? (cs : List Char) : Option (String × List Char) :=
  let value := cs.takeWhile (· ≠ '"')
  match cs.drop value.length with
  | '"' :: rest => some (String.ofList (Html.decodeChars value), rest)
  | _ => none

/-- The attribute at the start of a text, and what is behind it. -/
def readAttribute? (cs : List Char) : Option (Attribute × List Char) := do
  let (name, rest) ← readName? cs
  match rest with
  | '=' :: '"' :: rest => do
    let (value, rest) ← readValue? rest
    return (⟨name, value⟩, rest)
  | _ => none

theorem readName?_length {cs rest : List Char} {name : String}
    (h : readName? cs = some (name, rest)) : rest.length ≤ cs.length := by
  unfold readName? at h
  dsimp only at h
  split at h
  · cases h
  · cases h
    simp

theorem readValue?_length {cs rest : List Char} {value : String}
    (h : readValue? cs = some (value, rest)) : rest.length ≤ cs.length := by
  unfold readValue? at h
  dsimp only at h
  split at h
  · rename_i hdrop
    cases h
    have hlength := congrArg List.length hdrop
    rw [List.length_drop, List.length_cons] at hlength
    omega
  · cases h

/-- Reading an attribute never goes backwards. -/
theorem readAttribute?_length {cs rest : List Char} {entry : Attribute}
    (h : readAttribute? cs = some (entry, rest)) : rest.length ≤ cs.length := by
  unfold readAttribute? at h
  obtain ⟨⟨name, behind⟩, hname, h⟩ := Option.bind_eq_some_iff.1 h
  dsimp only at h
  split at h
  · obtain ⟨⟨value, last⟩, hvalue, h⟩ := Option.bind_eq_some_iff.1 h
    cases h
    have hbehind := readName?_length hname
    have hlast := readValue?_length hvalue
    simp only [List.length_cons] at hbehind
    exact Nat.le_trans hlast (by omega)
  · cases h

/-- The attributes up to the end of a tag, and what is behind it. -/
def readAttributes? : List Char → Option (List Attribute × List Char)
  | '>' :: rest => some ([], rest)
  | ' ' :: cs =>
    match _h : readAttribute? cs with
    | none => none
    | some (entry, rest) =>
      (readAttributes? rest).map fun (entries, last) => (entry :: entries, last)
  | _ => none
termination_by cs => cs.length
decreasing_by
  have hlength := readAttribute?_length _h
  rw [List.length_cons]
  omega

/-- A tag together with its attributes. -/
structure StartTag where
  /-- The name of the tag. -/
  tag : String
  /-- The attributes in the order in which they are written. -/
  attributes : List Attribute
deriving DecidableEq, Repr

/-- Attributes as they are written, each with its value escaped. -/
def entriesMarkup (entries : List Attribute) : String :=
  String.join (entries.map fun entry =>
    Template.attributeMarkup entry.name (Html.escape entry.value))

namespace StartTag

/-- The start tag at the start of a text, and what is behind it. -/
def read? : List Char → Option (StartTag × List Char)
  | '<' :: cs => do
    let (tag, rest) ← readName? cs
    let (attributes, last) ← readAttributes? rest
    return (⟨tag, attributes⟩, last)
  | _ => none

/-- A start tag as it is written. -/
def write (start : StartTag) : String :=
  "<" ++ start.tag ++ entriesMarkup start.attributes ++ ">"

end StartTag

/-! ## Reading what is written -/

/-- A text that is read as one name: it is not empty, and no character ends it. -/
def IsWord (text : String) : Prop := text ≠ "" ∧ ∀ c ∈ text.toList, endsName c = false

theorem endsName_of_isNameChar {c : Char} (h : isNameChar c = true ∨ c = ':') :
    endsName c = false := by
  rcases h with h | rfl
  · have hmarks : "/>=<\"\x27".toList.any isNameChar = false := by decide
    rw [endsName, isGap_of_isNameChar h, Bool.false_or, List.contains_eq_mem,
      decide_eq_false_iff_not]
    exact fun hmem => List.any_eq_false.1 hmarks c hmem h
  · decide

theorem IsWord.of_isName {cls : NameClass} {name : String} (h : cls.IsName name.toList) :
    IsWord name := by
  refine ⟨fun hempty => ne_nil_of_isName h ?_, fun c hc =>
    endsName_of_isNameChar (isNameChar_of_isName h c hc)⟩
  rw [hempty, String.toList_empty]

/-- A name is read up to the character that ends it. -/
theorem readName?_append {name : String} (h : IsWord name) {c : Char} (hc : endsName c = true)
    (cs : List Char) : readName? (name.toList ++ c :: cs) = some (name, c :: cs) := by
  have htake : (name.toList ++ c :: cs).takeWhile (fun c => !endsName c) = name.toList := by
    rw [List.takeWhile_append_of_pos (fun d hd => by rw [h.2 d hd]; rfl),
      List.takeWhile_cons_of_neg (by rw [hc]; decide), List.append_nil]
  have hne : name.toList.isEmpty = false := by
    rw [List.isEmpty_eq_false_iff]
    exact fun hempty => h.1 (String.toList_eq_nil_iff.1 hempty)
  simp only [readName?, htake, hne, List.drop_left, String.ofList_toList]
  rfl

/-- A value is read up to the quote behind it, and its entities are replaced. -/
theorem readValue?_escape (value : String) (cs : List Char) :
    readValue? ((Html.escape value).toList ++ '"' :: cs) = some (value, cs) := by
  have hquote : ∀ c ∈ (Html.escape value).toList, decide (c ≠ '"') = true := by
    intro c hc
    rw [Html.escape, String.toList_ofList] at hc
    refine decide_eq_true fun heq => ?_
    subst heq
    exact Html.not_mem_escapeChars (by decide) _ hc
  have htake : ((Html.escape value).toList ++ '"' :: cs).takeWhile (· ≠ '"') =
      (Html.escape value).toList := by
    rw [List.takeWhile_append_of_pos hquote, List.takeWhile_cons_of_neg (by decide),
      List.append_nil]
  simp only [readValue?, htake, List.drop_left]
  rw [Html.escape, String.toList_ofList, Html.decodeChars_escapeChars, String.ofList_toList]

theorem readAttribute?_write {name : String} (h : IsWord name) (value : String)
    (cs : List Char) :
    readAttribute? (name.toList ++ '=' :: '"' :: ((Html.escape value).toList ++ '"' :: cs)) =
      some (⟨name, value⟩, cs) := by
  rw [readAttribute?, readName?_append h (by decide)]
  simp [readValue?_escape]

@[simp] theorem entriesMarkup_nil_toList : (entriesMarkup []).toList = [] := by
  simp [entriesMarkup]

theorem entriesMarkup_cons_toList (entry : Attribute) (entries : List Attribute)
    (cs : List Char) :
    (entriesMarkup (entry :: entries)).toList ++ cs =
      ' ' :: (entry.name.toList ++ '=' :: '"' :: ((Html.escape entry.value).toList ++
        '"' :: ((entriesMarkup entries).toList ++ cs))) := by
  simp [entriesMarkup, Template.attributeMarkup]

/-- Attributes are read one after the other, up to the end of the tag. -/
theorem readAttributes?_write {entries : List Attribute}
    (h : ∀ entry ∈ entries, IsWord entry.name) (cs : List Char) :
    readAttributes? ((entriesMarkup entries).toList ++ '>' :: cs) = some (entries, cs) := by
  induction entries with
  | nil => rw [entriesMarkup_nil_toList, List.nil_append, readAttributes?]
  | cons entry entries ih =>
      obtain ⟨hfirst, hrest⟩ := List.forall_mem_cons.1 h
      rw [entriesMarkup_cons_toList, readAttributes?]
      split
      · rename_i hnone
        rw [readAttribute?_write hfirst] at hnone
        cases hnone
      · rename_i hsome
        rw [readAttribute?_write hfirst] at hsome
        cases hsome
        rw [ih hrest]
        rfl

/-- Behind the name of a tag stands an attribute or the end of the tag. -/
theorem head_of_entriesMarkup (entries : List Attribute) (cs : List Char) :
    ∃ c rest, endsName c = true ∧ (entriesMarkup entries).toList ++ '>' :: cs = c :: rest := by
  cases entries with
  | nil => exact ⟨'>', cs, by decide, by rw [entriesMarkup_nil_toList, List.nil_append]⟩
  | cons entry entries =>
      exact ⟨' ', _, by decide, entriesMarkup_cons_toList entry entries _⟩

/-- A tag that is written is read back, and nothing behind it is touched. -/
theorem StartTag.read?_write {start : StartTag} (htag : IsWord start.tag)
    (hnames : ∀ entry ∈ start.attributes, IsWord entry.name) (cs : List Char) :
    StartTag.read? (start.write.toList ++ cs) = some (start, cs) := by
  obtain ⟨c, rest, hc, hhead⟩ := head_of_entriesMarkup start.attributes cs
  have hwritten : start.write.toList ++ cs =
      '<' :: (start.tag.toList ++ ((entriesMarkup start.attributes).toList ++ '>' :: cs)) := by
    simp [StartTag.write]
  have hattributes := readAttributes?_write hnames cs
  rw [hhead] at hwritten hattributes
  rw [hwritten, StartTag.read?, readName?_append htag hc]
  simp [hattributes]

/-! ## What an opening tag shows -/

namespace Template

variable {blocks : List String} {slots : List (Option String)} {attributes : AttributeList}

/-- The classes of an element as one text. -/
def composedClasses (blocks : List String) (slots : List (Option String)) : String :=
  " ".intercalate (elementClasses blocks slots)

/-- An attribute that stands in a slot, the escapes of its value resolved. -/
def shownSlot (slot : Attribute) : Attribute := ⟨slot.name, Text.unescape slot.value⟩

/-- The class attribute of an element with names, behind whose classes stands the class that
is declared. -/
def shownClass (blocks : List String) (slots : List (Option String)) (declared : String) :
    Attribute :=
  ⟨className, composedClasses blocks slots ++
    if declared = "" then "" else " " ++ Text.unescape declared⟩

/-- The attributes that an opening tag shows. -/
def shownAttributes (blocks : List String) (attributes : AttributeList) :
    Option (List (Option String)) → List Attribute
  | none => attributes.slots.map shownSlot
  | some slots =>
    (if attributes.has className then [] else [shownClass blocks slots ""]) ++
      attributes.slots.map fun slot =>
        if slot.name = className then shownClass blocks slots slot.value else shownSlot slot

/-! ### Classes need no escaping -/

theorem isPlain_of_isNameChar {c : Char} (h : isNameChar c = true ∨ c = ':') : Html.IsPlain c := by
  have hend := endsName_of_isNameChar h
  unfold Html.IsPlain Html.escapeChar
  split
  · exact absurd h (by decide)
  all_goals first | rfl | exact absurd hend (by decide)

theorem isPlain_of_isName {cls : NameClass} {name : String} (h : cls.IsName name.toList) :
    ∀ c ∈ name.toList, Html.IsPlain c :=
  fun c hc => isPlain_of_isNameChar (isNameChar_of_isName h c hc)

/-- No character in the classes of an element has to be escaped. -/
theorem escape_composedClasses
    (hblocks : ∀ block ∈ blocks, NameClass.block.IsName block.toList)
    (hslots : ∀ name, some name ∈ slots → NameClass.element.IsName name.toList) :
    Html.escape (composedClasses blocks slots) = composedClasses blocks slots := by
  have hclass : ∀ cls ∈ elementClasses blocks slots, Html.escape cls = cls := by
    intro cls hcls
    obtain ⟨name, hname, hcls⟩ := List.mem_flatMap.1 hcls
    obtain ⟨block, hblock, rfl⟩ := List.mem_map.1 hcls
    rw [Html.escape_append, Html.escape_append,
      Html.escape_of_plain (isPlain_of_isName (hblocks block hblock)),
      Html.escape_of_plain (isPlain_of_isName (hslots name (List.reduceOption_mem_iff.1 hname)))]
    rfl
  rw [composedClasses, Html.escape_intercalate, List.map_congr_left hclass, List.map_id']
  rfl

/-! ### The markup of an opening tag -/

/-- Resolving escapes never makes a value empty. -/
theorem unescape_eq_empty_iff {text : String} : Text.unescape text = "" ↔ text = "" := by
  constructor
  · intro h
    have hchars : Text.unescapeChars text.toList = [] := by simpa [Text.unescape] using h
    rw [← String.toList_eq_nil_iff]
    unfold Text.unescapeChars at hchars
    split at hchars
    · assumption
    · cases hchars
    · cases hchars
  · rintro rfl
    rfl

theorem writtenValue_eq_empty_iff {slot : Attribute} : writtenValue slot = "" ↔ slot.value = "" :=
  Html.escape_eq_empty_iff.trans unescape_eq_empty_iff

/-- The class attribute is the escaped form of the classes and the declared class. -/
theorem classValue_eq_escape
    (hblocks : ∀ block ∈ blocks, NameClass.block.IsName block.toList)
    (hslots : ∀ name, some name ∈ slots → NameClass.element.IsName name.toList)
    (slot : Attribute) :
    classValue (classStems blocks none) slots (writtenValue slot) =
      Html.escape (shownClass blocks slots slot.value).value := by
  rw [classValue, classStems_none, composeClasses_eq_intercalate, shownClass,
    Html.escape_append, escape_composedClasses hblocks hslots, composedClasses]
  by_cases hvalue : slot.value = ""
  · rw [if_pos hvalue, if_pos (writtenValue_eq_empty_iff.2 hvalue), Html.escape_empty]
  · rw [if_neg hvalue, if_neg (mt writtenValue_eq_empty_iff.1 hvalue), Html.escape_append]
    rfl

/-- An opening tag is written like the attributes that it shows. -/
theorem openMarkup_eq_write {names : Option (List (Option String))}
    (hblocks : ∀ block ∈ blocks, NameClass.block.IsName block.toList)
    (hnames : ∀ slots, names = some slots → ∀ name, some name ∈ slots →
      NameClass.element.IsName name.toList) (tag : String) :
    openMarkup (classStems blocks none) tag attributes names =
      StartTag.write ⟨tag, shownAttributes blocks attributes (classSource names)⟩ := by
  rw [openMarkup, StartTag.write, entriesMarkup]
  cases hsource : classSource names with
  | none =>
      simp only [shownAttributes, List.map_map]
      rw [String.append_empty]
      rfl
  | some slots =>
      have hslots : ∀ name, some name ∈ slots → NameClass.element.IsName name.toList :=
        hnames slots (Option.filter_eq_some_iff.1 hsource).1
      have hleading : classValue (classStems blocks none) slots "" = _ :=
        classValue_eq_escape hblocks hslots ⟨className, ""⟩
      have hwritten : attributes.slots.map (fun slot =>
          if slot.name = className then
            attributeMarkup className (classValue (classStems blocks none) slots (writtenValue slot))
          else attributeMarkup slot.name (writtenValue slot)) =
        (attributes.slots.map fun slot =>
          if slot.name = className then shownClass blocks slots slot.value
          else shownSlot slot).map fun entry =>
            attributeMarkup entry.name (Html.escape entry.value) := by
        rw [List.map_map]
        refine List.map_congr_left fun slot _ => ?_
        simp only [Function.comp]
        split
        · rw [classValue_eq_escape hblocks hslots]
          rfl
        · rfl
      simp only [shownAttributes, List.map_append, String.join_append, hwritten]
      split
      · simp
      · rw [hleading, List.map_singleton, String.join_cons, String.join_nil, String.append_empty]
        simp only [String.append_assoc]
        rfl

/-! ### Names of attributes -/

namespace AttributeList

/-- No attribute ever gets a second slot. -/
theorem nodup_names_extend {list : AttributeList} (h : list.names.Nodup)
    (entries : List Attribute) : (list.extend entries).names.Nodup := by
  induction entries generalizing list with
  | nil => exact h
  | cons entry entries ih =>
      rw [extend_cons]
      exact ih (nodup_names_set h entry)

/-- All slots are those of attributes that were set. -/
theorem mem_names_extend {list : AttributeList} {entries : List Attribute} {name : String}
    (h : name ∈ (list.extend entries).names) :
    name ∈ list.names ∨ name ∈ entries.map (·.name) := by
  induction entries generalizing list with
  | nil => exact .inl h
  | cons entry entries ih =>
      rw [extend_cons] at h
      rw [List.map_cons, List.mem_cons]
      rcases ih h with hset | hrest
      · rw [names_set] at hset
        split at hset
        · exact .inl hset
        · rcases List.mem_append.1 hset with hlist | hentry
          · exact .inl hlist
          · exact .inr (.inl (List.mem_singleton.1 hentry))
      · exact .inr (.inr hrest)

theorem has_iff_mem_names {list : AttributeList} {name : String} :
    list.has name = true ↔ name ∈ list.names := by
  simp [has, names]

end AttributeList

/-- Next to the slots, only the class is shown, and only if it has no slot. -/
theorem shownAttributes_names (blocks : List String) (attributes : AttributeList)
    (source : Option (List (Option String))) :
    (shownAttributes blocks attributes source).map (·.name) =
      (if source.isSome ∧ className ∉ attributes.names then [className] else []) ++
        attributes.names := by
  cases source with
  | none => simp [shownAttributes, shownSlot, AttributeList.names]
  | some slots =>
      have hslots : (attributes.slots.map fun slot =>
          if slot.name = className then shownClass blocks slots slot.value
          else shownSlot slot).map (·.name) = attributes.names := by
        rw [List.map_map, AttributeList.names]
        refine List.map_congr_left fun slot _ => ?_
        simp only [Function.comp]
        split
        · rename_i hname
          exact hname.symm
        · rfl
      rw [shownAttributes, List.map_append, hslots]
      by_cases hmem : className ∈ attributes.names
      · rw [if_pos (AttributeList.has_iff_mem_names.2 hmem), if_neg (by simp [hmem])]
        rfl
      · rw [if_neg (mt AttributeList.has_iff_mem_names.1 hmem), if_pos ⟨rfl, hmem⟩]
        rfl

/-! ### Reading an opening tag -/

theorem classSource_eq_none {names : Option (List (Option String))}
    (h : ∀ slots name, names = some slots → some name ∉ slots) : classSource names = none := by
  refine Option.filter_eq_none_iff.2 fun slots hslots hany => ?_
  obtain ⟨slot, hslot, hsome⟩ := List.any_eq_true.1 hany
  obtain ⟨name, rfl⟩ := Option.isSome_iff_exists.1 hsome
  exact h slots name hslots hslot

theorem classSource_eq_some {names : Option (List (Option String))} {name : String}
    (h : names = some slots) (hname : some name ∈ slots) : classSource names = some slots :=
  Option.filter_eq_some_iff.2 ⟨h, List.any_eq_true.2 ⟨some name, hname, rfl⟩⟩

/-- **An opening tag is read back.**  Let a tag and attributes be set up from names, with any
values, and let its element have any list of names, in a template whose chain has any block
names.  Whatever elements are called for, the opening tag is written, and the plain reader takes
all of it and gives the tag and attributes with pairwise different names.  Without a name these
are the slots in their order, the escapes of their values resolved.  With a name there is exactly
one class attribute, in its slot or else first, whose value is the classes and, if a class is
declared and not empty, a space and the declared class. -/
theorem openingTag_read {call : String → Except RenderFault (List Piece)} {tag : String}
    {entries : List Attribute} {names : Option (List (Option String))} {blocks : List String}
    (htag : NameClass.tag.IsName tag.toList)
    (hentries : ∀ entry ∈ entries, NameClass.attribute.IsName entry.name.toList)
    (hnames : ∀ slots, names = some slots → ∀ name, some name ∈ slots →
      NameClass.element.IsName name.toList)
    (hblocks : ∀ block ∈ blocks, NameClass.block.IsName block.toList) :
    let attributes := AttributeList.empty.extend entries
    ∃ pieces shown,
      Fragment.piecesOfAll call (openingTag tag attributes names) = .ok pieces ∧
        StartTag.read? (writePieces (blocks.map classStem ++ [""]) pieces).toList =
          some (⟨tag, shown⟩, []) ∧
        (shown.map (·.name)).Nodup ∧
        ((∀ slots name, names = some slots → some name ∉ slots) →
          shown = attributes.slots.map shownSlot) ∧
        ∀ slots name, names = some slots → some name ∈ slots →
          (shown.map (·.name)).count className = 1 ∧
            shown = (if className ∈ attributes.names then [] else [shownClass blocks slots ""]) ++
              attributes.slots.map fun slot =>
                if slot.name = className then shownClass blocks slots slot.value
                else shownSlot slot := by
  intro attributes
  have hnodup : attributes.names.Nodup :=
    AttributeList.nodup_names_extend (by simp [AttributeList.empty, AttributeList.names]) entries
  obtain ⟨pieces, hpieces, hwritten⟩ : Writes call (blocks.map classStem ++ [""]) _ _ :=
    openingTag_markup tag attributes names
  have hshown := shownAttributes_names blocks attributes (classSource names)
  have hshownNodup : ((shownAttributes blocks attributes (classSource names)).map
      (·.name)).Nodup := by
    rw [hshown]
    split
    · rename_i hclass
      exact List.nodup_cons.2 ⟨hclass.2, hnodup⟩
    · exact hnodup
  have hwords : ∀ entry ∈ shownAttributes blocks attributes (classSource names),
      IsWord entry.name := by
    intro entry hentry
    have hname := List.mem_map_of_mem (f := (·.name)) hentry
    rw [hshown] at hname
    rcases List.mem_append.1 hname with hclass | hslot
    · split at hclass
      · rw [List.mem_singleton.1 hclass]
        have hchars : className.toList.all isNameChar = true := by decide
        refine ⟨by decide, fun c hc => endsName_of_isNameChar (.inl ?_)⟩
        exact List.all_eq_true.1 hchars c hc
      · cases hclass
    · rcases AttributeList.mem_names_extend hslot with hempty | hset
      · cases hempty
      · obtain ⟨set, hset, hsetName⟩ := List.mem_map.1 hset
        exact hsetName ▸ .of_isName (hentries set hset)
  refine ⟨pieces, shownAttributes blocks attributes (classSource names), hpieces, ?_,
    hshownNodup, ?_, ?_⟩
  · have hread := @StartTag.read?_write
      ⟨tag, shownAttributes blocks attributes (classSource names)⟩ (.of_isName htag) hwords []
    rw [List.append_nil] at hread
    rw [hwritten, ← classStems_none, openMarkup_eq_write hblocks hnames, hread]
  · intro hnone
    rw [classSource_eq_none hnone]
    rfl
  · intro slots name hslots hname
    rw [classSource_eq_some hslots hname] at hshown hshownNodup ⊢
    refine ⟨List.count_eq_one_of_mem hshownNodup ?_, ?_⟩
    · rw [hshown]
      by_cases hclass : className ∈ attributes.names <;> simp [hclass]
    · simp only [shownAttributes, AttributeList.has_iff_mem_names]

/-- One segment is a name of any class that its first character may start. -/
theorem isName_of_all {cls : NameClass} {c : Char} {cs : List Char} (hc : cls.isStart c = true)
    (hcs : cs.all isNameChar = true) : cls.IsName (c :: cs) :=
  .inl ⟨c, cs, rfl, hc, List.all_eq_true.1 hcs⟩

/-- An image with a value that tries to leave its quotes, a declared class and names. -/
theorem quotedImage_is_read :
    ∃ pieces, Fragment.piecesOfAll (fun name => .error (.undefined name))
        (openingTag "img" (.extend .empty [⟨"alt", "\\\"><b>"⟩, ⟨"class", "wide"⟩])
          (some [none, some "photo"])) = .ok pieces ∧
      StartTag.read? (writePieces ["card__", ""] pieces).toList =
        some (⟨"img", [⟨"alt", "\"><b>"⟩, ⟨"class", "card__photo wide"⟩]⟩, []) := by
  obtain ⟨pieces, shown, hpieces, hread, -, -, hnamed⟩ :=
    @openingTag_read (fun name => .error (.undefined name)) "img"
      [⟨"alt", "\\\"><b>"⟩, ⟨"class", "wide"⟩] (some [none, some "photo"]) ["card"]
      (isName_of_all (c := 'i') (by decide) (by decide))
      (List.forall_mem_cons.2 ⟨isName_of_all (c := 'a') (by decide) (by decide),
        List.forall_mem_singleton.2 (isName_of_all (c := 'c') (by decide) (by decide))⟩)
      (by
        intro slots hslots name hname
        cases hslots
        obtain rfl : name = "photo" := by simpa using hname
        exact isName_of_all (c := 'p') (by decide) (by decide))
      (List.forall_mem_singleton.2 (isName_of_all (c := 'c') (by decide) (by decide)))
  obtain ⟨-, rfl⟩ := hnamed [none, some "photo"] "photo" rfl (by decide)
  exact ⟨pieces, hpieces, hread⟩

end Template

end BemMarkup

import Mathlib.Data.List.Pairwise
import BemMarkup.Document.Cursor

/-!
# How records lie in a text

A record says where it was read and from which text.  This module states what it means
that these places are right, without reading anything.

A text that starts at some offset is *tiled* by spans if it consists of the texts of the
spans in their order, with nothing but gaps before, between and behind them.  `Laid` says
the same of nodes and of all that is inside them: the content of an element tiles what
stands between its braces, and its attribute list lies before them.  What is wanted of the
ranges of a document follows from this by induction: they are exact, those of siblings are
disjoint and ordered, and those of children lie inside.

## Main results

* `Tiled.pairwise`, `Tiled.covers`: tiles are ordered, and what they leave out are gaps.
* `Laid.liesIn_of_mem_records`: the records of laid nodes are parts of the text.
* `Laid.isLaid_of_mem_preorder`: inside a laid element, its parts are laid.
* `Laid.pairwise_preorder`: in preorder, every node starts behind the ones before it.
-/

namespace BemMarkup.Document

open Text

/-- A text that is made of gaps. -/
def Blank (text : List Char) : Prop := ∀ c ∈ text, isGap c = true

theorem Blank.nil : Blank [] := by simp [Blank]

theorem Blank.singleton {c : Char} (h : isGap c = true) : Blank [c] := by simpa [Blank] using h

theorem Blank.append {a b : List Char} (ha : Blank a) (hb : Blank b) : Blank (a ++ b) :=
  List.forall_mem_append.2 ⟨ha, hb⟩

/-! ## Spans in a text -/

/-- The number of bytes before the end of a span. -/
def Span.finish (span : Span) : Nat := span.offset + byteLength span.text.toList

/-- The span is a part, and not an empty one, of a text that starts at the offset. -/
def Span.LiesIn (span : Span) (offset : Nat) (text : List Char) : Prop :=
  span.text ≠ "" ∧ ∃ before after, text = before ++ (span.text.toList ++ after) ∧
    span.offset = offset + byteLength before

section Spans

variable {span : Span} {offset : Nat} {text : List Char}

theorem Span.LiesIn.le_offset (h : span.LiesIn offset text) : offset ≤ span.offset := by
  obtain ⟨-, before, after, -, hoffset⟩ := h
  omega

theorem Span.LiesIn.finish_le (h : span.LiesIn offset text) :
    span.finish ≤ offset + byteLength text := by
  obtain ⟨-, before, after, rfl, hoffset⟩ := h
  simp only [Span.finish, byteLength_append]
  omega

theorem Span.offset_lt_finish (hne : span.text ≠ "") : span.offset < span.finish := by
  have hpos : byteLength span.text.toList ≠ 0 := by simpa using hne
  rw [Span.finish]
  omega

theorem Span.text_ne_of_braces {head interior : List Char}
    (h : span.text.toList = head ++ '\x7b' :: (interior ++ ['\x7d'])) : span.text ≠ "" := by
  intro hempty
  simp [hempty] at h

theorem Span.LiesIn.behind {front : List Char}
    (h : span.LiesIn (offset + byteLength front) text) : span.LiesIn offset (front ++ text) := by
  obtain ⟨hne, before, after, rfl, hoffset⟩ := h
  refine ⟨hne, front ++ before, after, by simp, ?_⟩
  rw [hoffset, byteLength_append]
  omega

theorem Span.LiesIn.before {back : List Char} (h : span.LiesIn offset text) :
    span.LiesIn offset (text ++ back) := by
  obtain ⟨hne, before, after, rfl, hoffset⟩ := h
  exact ⟨hne, before, after ++ back, by simp, hoffset⟩

/-- A part of a part is a part. -/
theorem Span.LiesIn.trans {inner : Span} (hinner : inner.LiesIn span.offset span.text.toList)
    (h : span.LiesIn offset text) : inner.LiesIn offset text := by
  obtain ⟨-, before, after, rfl, hoffset⟩ := h
  rw [hoffset] at hinner
  exact hinner.before.behind

end Spans

/-! ## Tiles -/

/-- The text, which starts at the offset, consists of the texts of the spans and of gaps. -/
inductive Tiled : (offset : Nat) → (text : List Char) → List Span → Prop
  | nil {offset : Nat} {gap : List Char} (blank : Blank gap) : Tiled offset gap []
  | cons {offset : Nat} {gap rest : List Char} {span : Span} {spans : List Span}
      (blank : Blank gap) (start : span.offset = offset + byteLength gap) (ne : span.text ≠ "")
      (others : Tiled span.finish rest spans) :
      Tiled offset (gap ++ (span.text.toList ++ rest)) (span :: spans)

section Tiles

variable {offset : Nat} {text : List Char} {spans : List Span}

/-- Tiles are parts of the text. -/
theorem Tiled.liesIn (h : Tiled offset text spans) :
    ∀ span ∈ spans, span.LiesIn offset text := by
  induction h with
  | nil => simp
  | @cons offset gap rest span spans blank start ne _ ih =>
      intro other hother
      rcases List.mem_cons.1 hother with rfl | hother
      · exact ⟨ne, gap, rest, rfl, start⟩
      · have h := ih other hother
        rw [Span.finish, start] at h
        exact h.behind.behind

/-- Tiles are disjoint and in order. -/
theorem Tiled.pairwise (h : Tiled offset text spans) :
    spans.Pairwise fun a b => a.finish ≤ b.offset := by
  induction h with
  | nil => exact .nil
  | cons _ _ _ others ih =>
      exact List.pairwise_cons.2 ⟨fun other hother => (others.liesIn other hother).le_offset, ih⟩

theorem Tiled.behind_blank {front : List Char} (hfront : Blank front)
    (h : Tiled (offset + byteLength front) text spans) : Tiled offset (front ++ text) spans := by
  cases h with
  | nil blank => exact .nil (hfront.append blank)
  | cons blank start ne others =>
      rw [Nat.add_assoc, ← byteLength_append] at start
      have h := Tiled.cons (hfront.append blank) start ne others
      simpa using h

theorem Tiled.singleton {span : Span} (hne : span.text ≠ "") :
    Tiled span.offset span.text.toList [span] := by
  have h := Tiled.cons Blank.nil rfl hne (Tiled.nil Blank.nil)
  simpa using h

/-- Tiles of consecutive texts are tiles together. -/
theorem Tiled.append (h : Tiled offset text spans) {back : List Char} {others : List Span}
    (hback : Tiled (offset + byteLength text) back others) :
    Tiled offset (text ++ back) (spans ++ others) := by
  induction h with
  | nil blank => exact hback.behind_blank blank
  | @cons offset gap rest span spans blank start ne _ ih =>
      have hrest : span.finish + byteLength rest =
          offset + byteLength (gap ++ (span.text.toList ++ rest)) := by
        simp only [Span.finish, byteLength_append, start]
        omega
      rw [← hrest] at hback
      have h := Tiled.cons blank start ne (ih hback)
      simpa using h

/-- A character of a concatenation stands in one of its two parts. -/
theorem append_cons_cases {xs ys before after : List Char} {c : Char}
    (h : xs ++ ys = before ++ c :: after) :
    (∃ rest, xs = before ++ c :: rest) ∨
      ∃ front, before = xs ++ front ∧ ys = front ++ c :: after := by
  rcases List.append_eq_append_iff.1 h with ⟨front, hbefore, hys⟩ | ⟨rest, hxs, hrest⟩
  · exact .inr ⟨front, hbefore, hys⟩
  · cases rest with
    | nil => exact .inr ⟨[], by simpa using hxs.symm, by simpa using hrest.symm⟩
    | cons first rest =>
        obtain ⟨rfl, -⟩ := List.cons.inj hrest
        exact .inl ⟨rest, hxs⟩

/-- Outside the tiles there are only gaps. -/
theorem Tiled.covers (h : Tiled offset text spans) :
    ∀ {before after : List Char} {c : Char}, text = before ++ c :: after →
      isGap c = true ∨ ∃ span ∈ spans, span.offset ≤ offset + byteLength before ∧
        offset + byteLength before < span.finish := by
  induction h with
  | nil blank =>
      intro before after c hsplit
      exact .inl (blank c (by simp [hsplit]))
  | @cons offset gap rest span spans blank start _ _ ih =>
      intro before after c hsplit
      rcases append_cons_cases hsplit with ⟨_, hgap⟩ | ⟨middle, rfl, hmiddle⟩
      · exact .inl (blank c (by simp [hgap]))
      rcases append_cons_cases hmiddle with ⟨inside, hspan⟩ | ⟨front, rfl, hfront⟩
      · refine .inr ⟨span, List.mem_cons_self, ?_⟩
        have hc := c.utf8Size_pos
        simp only [Span.finish, byteLength_append, byteLength_cons, start, hspan]
        omega
      · rcases ih hfront with hgap | ⟨other, hother, hle, hlt⟩
        · exact .inl hgap
        · refine .inr ⟨other, List.mem_cons_of_mem _ hother, ?_⟩
          simp only [Span.finish, byteLength_append, start] at hle hlt ⊢
          omega

end Tiles

/-! ## Nodes in a text -/

/-- The spans of a node and of the parts of its heading. -/
def Node.records : Node → List Span
  | .element e =>
    e.span :: match e.heading.attributes with
      | none => []
      | some group => group.span :: group.superCall.toList.map (·.span)
  | node => [node.span]

theorem Node.span_mem_records (node : Node) : node.span ∈ node.records := by
  cases node <;> exact List.mem_cons_self

/-- The attribute list of a heading is a part of the text, but not its start, and its super
call is inside its parentheses. -/
def Heading.LaidIn (heading : Heading) (offset : Nat) (text : List Char) : Prop :=
  ∀ group, heading.attributes = some group →
    group.span.LiesIn offset text ∧ offset < group.span.offset ∧
      ∀ call, group.superCall = some call →
        call.span.LiesIn group.span.offset group.span.text.toList ∧
          group.span.offset < call.span.offset ∧ call.span.finish < group.span.finish

/-- Only the heading of a node without braces has parts. -/
def Node.IsFlat : Node → Prop
  | .element ⟨heading, none, span⟩ => heading.LaidIn span.offset span.text.toList
  | .element ⟨_, some _, _⟩ => False
  | _ => True

/-- The text, which starts at the offset, consists of the texts of the nodes and of gaps, and
so does what stands between the braces of an element. -/
inductive Laid : (offset : Nat) → (text : List Char) → List Node → Prop
  | nil {offset : Nat} {gap : List Char} (blank : Blank gap) : Laid offset gap []
  | flat {offset : Nat} {gap rest : List Char} {node : Node} {nodes : List Node}
      (blank : Blank gap) (start : node.span.offset = offset + byteLength gap)
      (ne : node.span.text ≠ "") (parts : node.IsFlat) (others : Laid node.span.finish rest nodes) :
      Laid offset (gap ++ (node.span.text.toList ++ rest)) (node :: nodes)
  | braced {offset : Nat} {gap rest head interior : List Char} {heading : Heading} {span : Span}
      {content nodes : List Node} (blank : Blank gap)
      (start : span.offset = offset + byteLength gap)
      (text : span.text.toList = head ++ '\x7b' :: (interior ++ ['\x7d']))
      (parts : heading.LaidIn span.offset head)
      (inside : Laid (span.offset + byteLength head + 1) interior content)
      (others : Laid span.finish rest nodes) :
      Laid offset (gap ++ (span.text.toList ++ rest))
        (.element ⟨heading, some content, span⟩ :: nodes)

/-- How the parts of an element lie in its text: its attribute list behind its start, and its
content, with gaps alone around it, between its braces. -/
structure Element.IsLaid (e : Element) : Prop where
  attributes : e.heading.LaidIn e.span.offset e.span.text.toList
  content : ∀ nodes, e.content = some nodes → ∃ head interior,
    e.span.text.toList = head ++ '\x7b' :: (interior ++ ['\x7d']) ∧
      e.heading.LaidIn e.span.offset head ∧
      Tiled (e.span.offset + byteLength head + 1) interior (nodes.map Node.span)

section Nodes

variable {offset : Nat} {text : List Char} {nodes : List Node}

theorem Heading.LaidIn.before {heading : Heading} {back : List Char}
    (h : heading.LaidIn offset text) : heading.LaidIn offset (text ++ back) := by
  intro group hgroup
  obtain ⟨hgroup, hrest⟩ := h group hgroup
  exact ⟨hgroup.before, hrest⟩

theorem preorderAll_flat {node : Node} (h : node.IsFlat) (depth : Nat) (nodes : List Node) :
    Node.preorderAll depth (node :: nodes) = (depth, node) :: Node.preorderAll depth nodes := by
  rw [Node.preorderAll]
  rcases node with ⟨heading, _ | content, span⟩ | literal | comment | call <;>
    first | rfl | exact absurd h id

theorem preorderAll_braced (heading : Heading) (content : List Node) (span : Span) (depth : Nat)
    (nodes : List Node) :
    Node.preorderAll depth (.element ⟨heading, some content, span⟩ :: nodes) =
      (depth, .element ⟨heading, some content, span⟩) ::
        (Node.preorderAll (depth + 1) content ++ Node.preorderAll depth nodes) := by
  rw [Node.preorderAll, Node.preorder, List.cons_append]

theorem preorderAll_append (depth : Nat) (xs ys : List Node) :
    Node.preorderAll depth (xs ++ ys) =
      Node.preorderAll depth xs ++ Node.preorderAll depth ys := by
  induction xs with
  | nil => rw [Node.preorderAll, List.nil_append, List.nil_append]
  | cons x xs ih => simp only [List.cons_append, Node.preorderAll, ih, List.append_assoc]

/-- Laid nodes tile the text. -/
theorem Laid.tiled (h : Laid offset text nodes) : Tiled offset text (nodes.map Node.span) := by
  induction h with
  | nil blank => exact .nil blank
  | flat blank start ne _ _ ih => exact .cons blank start ne ih
  | @braced _ _ _ head _ _ span _ _ blank start text _ _ _ _ ih =>
      exact .cons blank start (Span.text_ne_of_braces text) ih

theorem Laid.append_blank {back : List Char} (h : Laid offset text nodes) (hback : Blank back) :
    Laid offset (text ++ back) nodes := by
  induction h with
  | nil blank => exact .nil (blank.append hback)
  | flat blank start ne parts _ ih =>
      have h := Laid.flat blank start ne parts ih
      simpa using h
  | braced blank start text parts inside _ _ ih =>
      have h := Laid.braced blank start text parts inside ih
      simpa using h

theorem Laid.behind_blank {front : List Char} (hfront : Blank front)
    (h : Laid (offset + byteLength front) text nodes) : Laid offset (front ++ text) nodes := by
  cases h with
  | nil blank => exact .nil (hfront.append blank)
  | flat blank start ne parts others =>
      rw [Nat.add_assoc, ← byteLength_append] at start
      have h := Laid.flat (hfront.append blank) start ne parts others
      simpa using h
  | braced blank start text parts inside others =>
      rw [Nat.add_assoc, ← byteLength_append] at start
      have h := Laid.braced (hfront.append blank) start text parts inside others
      simpa using h

/-! ## What follows for all nodes -/

theorem Node.IsFlat.of_element {e : Element} (h : (Node.element e).IsFlat) :
    e.content = none ∧ e.heading.LaidIn e.span.offset e.span.text.toList := by
  obtain ⟨heading, _ | content, span⟩ := e
  · exact ⟨rfl, h⟩
  · exact absurd h id

/-- What lies in the content of an element lies in the element. -/
theorem Span.LiesIn.between_braces {span : Span} {head interior : List Char}
    (h : span.LiesIn (offset + byteLength head + 1) interior) :
    span.LiesIn offset (head ++ '\x7b' :: (interior ++ ['\x7d'])) := by
  have hbrace : offset + byteLength head + 1 = offset + byteLength (head ++ ['\x7b']) := by
    rw [byteLength_append, Nat.add_assoc]
    rfl
  rw [hbrace] at h
  have hbehind := (@Span.LiesIn.before _ _ _ ['\x7d'] h).behind
  simpa using hbehind

/-- The parts of a heading are parts of what the element is a part of. -/
theorem Node.liesIn_of_mem_records {node : Node} (hnode : node.span.LiesIn offset text)
    (hparts : ∀ e, node = .element e → e.heading.LaidIn e.span.offset e.span.text.toList) :
    ∀ span ∈ node.records, span.LiesIn offset text := by
  intro span hspan
  cases node with
  | literal _ | comment _ | superCall _ =>
      rw [List.mem_singleton.1 hspan]
      exact hnode
  | element e =>
      have hparts := hparts e rfl
      rw [Node.records] at hspan
      rcases List.mem_cons.1 hspan with rfl | hspan
      · exact hnode
      cases hattributes : e.heading.attributes with
      | none => simp [hattributes] at hspan
      | some group =>
          obtain ⟨hgroup, -, hcall⟩ := hparts group hattributes
          rw [hattributes] at hspan
          rcases List.mem_cons.1 hspan with rfl | hspan
          · exact hgroup.trans hnode
          · simp only [List.mem_map, Option.mem_toList] at hspan
            obtain ⟨call, hmem, rfl⟩ := hspan
            exact ((hcall call hmem).1.trans hgroup).trans hnode

/-- The records of laid nodes are parts of the text. -/
theorem Laid.liesIn_of_mem_records (h : Laid offset text nodes) :
    ∀ {depth : Nat}, ∀ entry ∈ Node.preorderAll depth nodes, ∀ span ∈ entry.2.records,
      span.LiesIn offset text := by
  induction h with
  | nil =>
      intro depth entry hentry
      simp [Node.preorderAll] at hentry
  | @flat offset gap rest node nodes blank start ne parts _ ih =>
      intro depth entry hentry span hspan
      rw [preorderAll_flat parts] at hentry
      rcases List.mem_cons.1 hentry with rfl | hentry
      · refine Node.liesIn_of_mem_records ⟨ne, gap, rest, rfl, start⟩ ?_ span hspan
        rintro e rfl
        exact parts.of_element.2
      · have hrest := ih entry hentry span hspan
        rw [Span.finish, start] at hrest
        exact hrest.behind.behind
  | @braced offset gap rest head interior heading span' content nodes blank start text parts _ _
      ihInside ih =>
      intro depth entry hentry span hspan
      have helement : (Node.element ⟨heading, some content, span'⟩).span.LiesIn offset
          (gap ++ (span'.text.toList ++ rest)) :=
        ⟨Span.text_ne_of_braces text, gap, rest, rfl, start⟩
      rw [preorderAll_braced] at hentry
      rcases List.mem_cons.1 hentry with rfl | hentry
      · refine Node.liesIn_of_mem_records helement ?_ span hspan
        rintro e he
        cases he
        simpa [text] using parts.before
      rcases List.mem_append.1 hentry with hentry | hentry
      · have hinside := (ihInside entry hentry span hspan).between_braces
        rw [← text] at hinside
        exact hinside.trans helement
      · have hrest := ih entry hentry span hspan
        rw [Span.finish, start] at hrest
        exact hrest.behind.behind

/-- In laid nodes, the parts of every element are laid. -/
theorem Laid.isLaid_of_mem_preorder (h : Laid offset text nodes) :
    ∀ {depth : Nat}, ∀ entry ∈ Node.preorderAll depth nodes, ∀ e, entry.2 = .element e →
      e.IsLaid := by
  induction h with
  | nil =>
      intro depth entry hentry
      simp [Node.preorderAll] at hentry
  | @flat offset gap rest node nodes blank start ne parts _ ih =>
      intro depth entry hentry e he
      rw [preorderAll_flat parts] at hentry
      rcases List.mem_cons.1 hentry with rfl | hentry
      · simp only at he
        subst he
        obtain ⟨hcontent, hheading⟩ := parts.of_element
        exact ⟨hheading, fun nodes hnodes => by simp [hcontent] at hnodes⟩
      · exact ih entry hentry e he
  | @braced offset gap rest head interior heading span content nodes blank start text parts inside
      _ ihInside ih =>
      intro depth entry hentry e he
      rw [preorderAll_braced] at hentry
      rcases List.mem_cons.1 hentry with rfl | hentry
      · cases he
        refine ⟨by simpa [text] using parts.before, ?_⟩
        intro nodes hnodes
        cases hnodes
        exact ⟨head, interior, text, parts, inside.tiled⟩
      rcases List.mem_append.1 hentry with hentry | hentry
      · exact ihInside entry hentry e he
      · exact ih entry hentry e he

/-- In preorder, every node starts behind the start of those before it. -/
theorem Laid.pairwise_preorder (h : Laid offset text nodes) :
    ∀ {depth : Nat}, (Node.preorderAll depth nodes).Pairwise fun a b =>
      a.2.span.offset < b.2.span.offset := by
  induction h with
  | nil =>
      intro depth
      simp [Node.preorderAll]
  | @flat offset gap rest node nodes blank start ne parts others ih =>
      intro depth
      rw [preorderAll_flat parts, List.pairwise_cons]
      refine ⟨fun entry hentry => ?_, ih⟩
      have hbehind := (others.liesIn_of_mem_records entry hentry entry.2.span
        entry.2.span_mem_records).le_offset
      have hnode := Span.offset_lt_finish ne
      dsimp only
      omega
  | @braced offset gap rest head interior heading span content nodes blank start text parts inside
      others ihInside ih =>
      intro depth
      have hinside : ∀ entry ∈ Node.preorderAll (depth + 1) content,
          span.offset < entry.2.span.offset ∧ entry.2.span.offset < span.finish := by
        intro entry hentry
        have hlies := inside.liesIn_of_mem_records entry hentry entry.2.span
          entry.2.span_mem_records
        have hle := hlies.le_offset
        have hfinish := hlies.between_braces.finish_le
        have hlt := Span.offset_lt_finish hlies.1
        rw [← text] at hfinish
        rw [Span.finish]
        omega
      have hbehind : ∀ entry ∈ Node.preorderAll depth nodes,
          span.finish ≤ entry.2.span.offset := fun entry hentry =>
        (others.liesIn_of_mem_records entry hentry entry.2.span
          entry.2.span_mem_records).le_offset
      rw [preorderAll_braced, List.pairwise_cons, List.pairwise_append]
      have hspan := Span.offset_lt_finish (Span.text_ne_of_braces text)
      refine ⟨fun entry hentry => ?_, ihInside, ih, fun a ha b hb => ?_⟩
      · rcases List.mem_append.1 hentry with hentry | hentry
        · exact (hinside entry hentry).1
        · have hle := hbehind entry hentry
          show span.offset < entry.2.span.offset
          omega
      · have hlt := (hinside a ha).2
        have hle := hbehind b hb
        omega

end Nodes

end BemMarkup.Document

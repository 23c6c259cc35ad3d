import BemMarkup.Json.Document
import BemMarkup.Json.Error
import BemMarkup.Session.Action

/-!
# Documents and errors sent through JSON

A document or an error that is written as JSON is read back as the same value, so nothing of
it is lost on the way.  The argument goes along with the shape of the data.  `Restores` says
of one encoder that a decoder undoes it and that it never writes `null`, which is what keeps
a part that is there apart from one that is missing.  It passes to optional parts and to
lists, and from the parts of a record to the record.

Only nodes nest.  For them the induction is on the node, with the nodes between the braces
of an element at hand when the element is read.

## Main results

* `Json.Restores.ofOption`, `Json.Restores.list`: optional parts and lists.
* `Document.restores_block`, `restores_error`: documents and errors.
* `json_loses_nothing`: documents and errors are read back, and a session cannot tell a
  document from the one that was sent through JSON.
-/

namespace BemMarkup

/-! ## Parts -/

namespace Json

/-- What the encoder writes, the decoder reads back, and it is never the `null` of a missing
part. -/
structure Restores {α : Type} (encode : α → Json) (decode : Json → Option α) : Prop where
  decode_encode : ∀ value, decode (encode value) = some value
  ne_null : ∀ value, encode value ≠ .null

section Parts

variable {α : Type} {encode : α → Json} {decode : Json → Option α}

theorem restores_str : Restores .str str? := ⟨fun _ => rfl, fun _ => nofun⟩

theorem restores_num : Restores .num num? := ⟨fun _ => rfl, fun _ => nofun⟩

/-- Different values are written differently. -/
theorem Restores.injective (h : Restores encode decode) : Function.Injective encode := by
  intro a b heq
  have hdecode := congrArg decode heq
  rw [h.decode_encode, h.decode_encode] at hdecode
  exact Option.some.inj hdecode

/-- A part that may be missing is read back, whether it is there or not. -/
theorem Restores.ofOption (h : Restores encode decode) (value : Option α) :
    (ofOption encode value).option? decode = some value := by
  cases value with
  | none => rfl
  | some value =>
      rw [ofOption_some, option?]
      · rw [h.decode_encode, Option.map_some]
      · exact h.ne_null value

/-- The items of a list are read back one by one. -/
theorem mapM_map_of_forall {values : List α}
    (h : ∀ value ∈ values, decode (encode value) = some value) :
    (values.map encode).mapM decode = some values := by
  induction values with
  | nil => rfl
  | cons value values ih =>
      have hvalue := h value List.mem_cons_self
      have hvalues := ih fun other hother => h other (List.mem_cons_of_mem _ hother)
      rw [List.map_cons, List.mapM_cons, hvalue, hvalues]
      rfl

theorem Restores.list (h : Restores encode decode) :
    Restores (fun values => .arr (values.map encode)) (list? decode) := by
  refine ⟨fun values => ?_, fun _ => nofun⟩
  exact mapM_map_of_forall fun value _ => h.decode_encode value

end Parts

end Json

/-! ## Documents -/

namespace Document

open Json

/-- The span of a record is read back from among its other fields. -/
theorem Span.ofFields?_fields (span : Span) : Span.ofFields? span.fields = some span := by
  simp [Span.ofFields?, Span.fields, field, num?, str?]

theorem Span.ofFields?_cons {name : String} (value : Json) (fields : List (String × Json))
    (hat : name ≠ "at") (hraw : name ≠ "raw") :
    Span.ofFields? ((name, value) :: fields) = Span.ofFields? fields := by
  rw [Span.ofFields?, field_cons_of_ne value fields hat, field_cons_of_ne value fields hraw]
  rfl

theorem restores_declaration : Restores Declaration.toJson Declaration.ofJson? := by
  refine ⟨fun declaration => ?_, fun _ => nofun⟩
  simp [Declaration.toJson, Declaration.ofJson?, obj?, str?, Span.ofFields?_cons,
    Span.ofFields?_fields]

theorem restores_superCall : Restores SuperCall.toJson SuperCall.ofJson? := by
  refine ⟨fun call => ?_, fun _ => nofun⟩
  simp [SuperCall.toJson, SuperCall.ofJson?, obj?, restores_str.ofOption, Span.ofFields?_cons,
    Span.ofFields?_fields]

theorem restores_attribute : Restores Attribute.toJson Attribute.ofJson? := by
  refine ⟨fun entry => ?_, fun _ => nofun⟩
  simp [Attribute.toJson, Attribute.ofJson?, obj?, field, str?]

theorem restores_attributeGroup : Restores AttributeGroup.toJson AttributeGroup.ofJson? := by
  refine ⟨fun group => ?_, fun _ => nofun⟩
  have hlist := restores_attribute.list.decode_encode group.attributes
  simp [AttributeGroup.toJson, AttributeGroup.ofJson?, obj?, field_cons_of_ne,
    restores_superCall.ofOption, hlist, Span.ofFields?_cons, Span.ofFields?_fields]

/-- In a name list, empty slots stay where they are. -/
theorem restores_names : Restores namesToJson namesOfJson? := by
  refine ⟨fun names => ?_, fun _ => nofun⟩
  exact mapM_map_of_forall fun name _ => restores_str.ofOption name

theorem restores_literal : Restores Literal.toJson Literal.ofJson? := by
  refine ⟨fun literal => ?_, fun _ => nofun⟩
  simp [Literal.toJson, Literal.ofJson?, obj?, field_cons_of_ne, str?, bool?, Span.ofFields?_cons,
    Span.ofFields?_fields]

theorem restores_comment : Restores Comment.toJson Comment.ofJson? := by
  refine ⟨fun comment => ?_, fun _ => nofun⟩
  simp [Comment.toJson, Comment.ofJson?, obj?, field_cons_of_ne, str?, bool?, Span.ofFields?_cons,
    Span.ofFields?_fields]

/-- A heading is read back from among the other fields of its element. -/
theorem Heading.ofFields?_append (heading : Heading) (fields : List (String × Json)) :
    Heading.ofFields? (heading.fields ++ fields) = some heading := by
  simp [Heading.ofFields?, Heading.fields, field_cons_of_ne, bool?, restores_str.ofOption,
    restores_names.ofOption, restores_attributeGroup.ofOption]

theorem Span.ofFields?_heading (heading : Heading) (fields : List (String × Json)) :
    Span.ofFields? (heading.fields ++ fields) = Span.ofFields? fields := by
  simp [Heading.fields, Span.ofFields?_cons]

theorem contentOfFields?_cons {name : String} (value : Json) (fields : List (String × Json))
    (hname : name ≠ "content") :
    Element.contentOfFields? ((name, value) :: fields) = Element.contentOfFields? fields := by
  rw [Element.contentOfFields?.eq_def]
  exact if_neg hname

/-- The content of an element stands behind the fields of its heading. -/
theorem contentOfFields?_heading (heading : Heading) (fields : List (String × Json)) :
    Element.contentOfFields? (heading.fields ++ fields) = Element.contentOfFields? fields := by
  simp [Heading.fields, contentOfFields?_cons]

theorem listOfJson?_map {nodes : List Node}
    (h : ∀ node ∈ nodes, Node.ofJson? node.toJson = some node) :
    Node.listOfJson? (Node.listToJson nodes) = some nodes := by
  induction nodes with
  | nil => rw [Node.listToJson, Node.listOfJson?]
  | cons node nodes ih =>
      have hnode := h node List.mem_cons_self
      have hnodes := ih fun other hother => h other (List.mem_cons_of_mem _ hother)
      rw [Node.listToJson, Node.listOfJson?, hnode, hnodes]
      rfl

/-- An element is read back if the nodes between its braces are. -/
theorem element_ofJson?_toJson {e : Element}
    (h : ∀ node ∈ (Node.element e).children, Node.ofJson? node.toJson = some node) :
    Element.ofJson? e.toJson = some e := by
  obtain ⟨heading, _ | nodes, span⟩ := e
  · simp [Element.toJson, Element.ofJson?, Heading.ofFields?_append, contentOfFields?_heading,
      Span.ofFields?_heading, Span.ofFields?_cons, Span.ofFields?_fields, Element.contentOfFields?]
  · have hnodes : Node.listOfJson? (Node.listToJson nodes) = some nodes := listOfJson?_map h
    rw [Node.listToJson_eq_map] at hnodes
    simp [Element.toJson, Element.ofJson?, Heading.ofFields?_append, contentOfFields?_heading,
      Span.ofFields?_heading, Span.ofFields?_cons, Span.ofFields?_fields, Element.contentOfFields?,
      hnodes]

/-- A node is read back, however deep it nests. -/
theorem node_ofJson?_toJson (node : Node) : Node.ofJson? node.toJson = some node := by
  induction node using Node.induct with
  | element e ih => simp [Node.toJson, Node.ofJson?, element_ofJson?_toJson ih]
  | literal l => simp [Node.toJson, Node.ofJson?, restores_literal.decode_encode]
  | comment c => simp [Node.toJson, Node.ofJson?, restores_comment.decode_encode]
  | superCall s => simp [Node.toJson, Node.ofJson?, restores_superCall.decode_encode]

theorem restores_element : Restores Element.toJson Element.ofJson? := by
  refine ⟨fun e => element_ofJson?_toJson fun node _ => node_ofJson?_toJson node, ?_⟩
  rintro ⟨heading, _ | nodes, span⟩ <;> simp [Element.toJson]

/-- A document is read back. -/
theorem restores_block : Restores Block.toJson Block.ofJson? := by
  refine ⟨fun block => ?_, fun _ => nofun⟩
  have hcontent := listOfJson?_map fun node (_ : node ∈ block.content) => node_ofJson?_toJson node
  rw [Node.listToJson_eq_map] at hcontent
  simp [Block.toJson, Block.ofJson?, obj?, arr?, field_cons_of_ne, restores_declaration.ofOption,
    restores_str.ofOption, hcontent, Span.ofFields?_cons, Span.ofFields?_fields]

end Document

/-! ## Errors -/

section Errors

open Json

theorem restores_parseErrorKind :
    Restores Document.ParseErrorKind.toJson Document.ParseErrorKind.ofJson? := by
  constructor
  · intro kind
    cases kind <;> simp [Document.ParseErrorKind.toJson, Document.ParseErrorKind.ofJson?, field, str?]
  · intro kind
    cases kind <;> simp [Document.ParseErrorKind.toJson]

theorem restores_parseError : Restores Document.ParseError.toJson Document.ParseError.ofJson? := by
  refine ⟨fun error => ?_, fun _ => nofun⟩
  simp [Document.ParseError.toJson, Document.ParseError.ofJson?, obj?, field, num?, str?,
    restores_parseErrorKind.decode_encode]

theorem restores_compileErrorKind :
    Restores Template.CompileErrorKind.toJson Template.CompileErrorKind.ofJson? := by
  constructor
  · intro kind
    cases kind <;>
      simp [Template.CompileErrorKind.toJson, Template.CompileErrorKind.ofJson?, field, str?,
        restores_str.ofOption]
  · intro kind
    cases kind <;> simp [Template.CompileErrorKind.toJson]

theorem restores_compileError :
    Restores Template.CompileError.toJson Template.CompileError.ofJson? := by
  refine ⟨fun error => ?_, fun _ => nofun⟩
  simp [Template.CompileError.toJson, Template.CompileError.ofJson?, obj?, field,
    restores_compileErrorKind.decode_encode, restores_num.ofOption]

/-- An error is read back. -/
theorem restores_error : Restores Error.toJson Error.ofJson? := by
  constructor
  · intro error
    cases error <;>
      simp [Error.toJson, Error.ofJson?, field, str?, restores_parseError.decode_encode,
        restores_compileError.decode_encode]
  · intro error
    cases error <;> simp [Error.toJson]

end Errors

/-! ## Documents of a session -/

/-- The origin of a template, its document sent through JSON. -/
def Origin.throughJson? : Origin → Option Origin
  | .source text => some (.source text)
  | .block document => (Document.Block.ofJson? document.toJson).map .block

/-- An action, the document in it sent through JSON. -/
def Action.throughJson? : Action → Option Action
  | .create id origin options => origin.throughJson?.map fun origin => .create id origin options
  | action => some action

theorem Action.throughJson?_eq (action : Action) : action.throughJson? = some action := by
  cases action with
  | create id origin options =>
      cases origin with
      | source text => rfl
      | block document =>
          rw [throughJson?, Origin.throughJson?, Document.restores_block.decode_encode]
          rfl
  | _ => rfl

/-- **JSON loses nothing.**  Documents and errors are read back from their JSON as they were.
Elements are written alike only if they are the same, also where they differ in nothing but a
name list or content that is missing, empty or has an empty slot.  And whatever is done in a
session has the same outcome if the documents in it are sent through JSON before. -/
theorem json_loses_nothing :
    (∀ block : Document.Block, Document.Block.ofJson? block.toJson = some block) ∧
      (∀ error : Error, Error.ofJson? error.toJson = some error) ∧
      (∀ e f : Document.Element, e.toJson = f.toJson ↔ e = f) ∧
      ∀ (s : Session) (actions : List Action),
        (actions.mapM Action.throughJson?).map s.run = some (s.run actions) := by
  refine ⟨Document.restores_block.decode_encode, restores_error.decode_encode, fun e f => ?_,
    fun s actions => ?_⟩
  · exact Document.restores_element.injective.eq_iff
  · have hactions : actions.mapM Action.throughJson? = some actions := by
      induction actions with
      | nil => rfl
      | cons action actions ih =>
          rw [List.mapM_cons, Action.throughJson?_eq, ih]
          rfl
    rw [hactions, Option.map_some]

/-- A text in JSON. -/
example : (Document.Node.literal ⟨"hi", false, 0, "'hi'"⟩).toJson =
    .obj [("Text", .obj [("value", .str "hi"), ("multiline", .bool false), ("at", .num 0),
      ("raw", .str "'hi'")])] := rfl

end BemMarkup

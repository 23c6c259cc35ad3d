import Mathlib.Logic.Relation
import BemMarkup.Result
import BemMarkup.Template.Rendering

/-!
# The call graph of renderers

A fragment calls the elements that it mentions, also those inside spliced content, however
deep the splices nest.  The renderer that is found for an element makes these calls edges
of a graph, and whether a template can be rendered is a question about this graph alone:
the walk fails where it meets a cycle, and never elsewhere.

The walk itself carries the elements around it and so depends on the path to an element.
`Expands` is what it computes without that list: every call replaced by the expansion of
the renderer that is called.

## Main results

* `Fragment.inductAll`: induction over fragments, through splices.
* `Fragment.exists_call_of_piecesOfAll_eq_error`: a walk over fragments fails with the fault
  of one of its calls.
* `Expands.unique`: an expansion is determined by the fragments.
* `Expands.acc`, `not_leadsToCycle_of_acc`: what has an expansion leads into no cycle.
* `Expands.infix_of_reachable`: every element that is reached leaves its own expansion in
  the output.
-/

namespace BemMarkup.Template

open Relation

/-! ## Induction over fragments -/

/-- A property of lists of fragments follows if it passes from the rest of a list to the
list, for a splice also from the spliced content. -/
theorem Fragment.inductAll {motive : List Fragment → Prop} (nil : motive [])
    (text : ∀ markup fragments, motive fragments → motive (.text markup :: fragments))
    (classes : ∀ names fragments, motive fragments → motive (.classes names :: fragments))
    (element : ∀ name fragments, motive fragments → motive (.element name :: fragments))
    (splice : ∀ content fragments, motive content → motive fragments →
      motive (.splice content :: fragments))
    (fragments : List Fragment) : motive fragments :=
  @Fragment.rec_1 (fun fragment => ∀ rest, motive rest → motive (fragment :: rest)) motive
    text classes element
    (fun content hcontent rest hrest => splice content rest hcontent hrest)
    nil (fun _ rest hfragment hrest => hfragment rest hrest) fragments

/-! ## Calls -/

mutual

/-- The elements that a fragment calls, through splices of any depth. -/
def Fragment.calls : Fragment → List String
  | .text _ | .classes _ => []
  | .element name => [name]
  | .splice content => Fragment.callsOfAll content

/-- The elements that consecutive fragments call. -/
def Fragment.callsOfAll : List Fragment → List String
  | [] => []
  | fragment :: fragments => fragment.calls ++ Fragment.callsOfAll fragments

end

namespace Fragment

@[simp] theorem callsOfAll_nil : callsOfAll [] = [] := by
  rw [callsOfAll]

@[simp] theorem callsOfAll_text (markup : String) (fragments : List Fragment) :
    callsOfAll (.text markup :: fragments) = callsOfAll fragments := by
  rw [callsOfAll, calls, List.nil_append]

@[simp] theorem callsOfAll_classes (names : List (Option String)) (fragments : List Fragment) :
    callsOfAll (.classes names :: fragments) = callsOfAll fragments := by
  rw [callsOfAll, calls, List.nil_append]

@[simp] theorem callsOfAll_element (name : String) (fragments : List Fragment) :
    callsOfAll (.element name :: fragments) = name :: callsOfAll fragments := by
  rw [callsOfAll, calls, List.singleton_append]

@[simp] theorem callsOfAll_splice (content fragments : List Fragment) :
    callsOfAll (.splice content :: fragments) = callsOfAll content ++ callsOfAll fragments := by
  rw [callsOfAll, calls]

@[simp] theorem callsOfAll_append (xs ys : List Fragment) :
    callsOfAll (xs ++ ys) = callsOfAll xs ++ callsOfAll ys := by
  induction xs with
  | nil => simp
  | cons x xs ih => rw [List.cons_append, callsOfAll, callsOfAll, ih, List.append_assoc]

end Fragment

/-- The renderer of `outer`, as it is looked up through all layers, mentions `inner` in
its opening or its content. -/
def Calls (renderers : Layers Renderer) (outer inner : String) : Prop :=
  ∃ renderer, renderers.get? outer = some renderer ∧
    inner ∈ Fragment.callsOfAll renderer.opening ++ Fragment.callsOfAll renderer.content

/-- A closing tag calls nothing. -/
@[simp] theorem Renderer.callsOfAll_fragments (renderer : Renderer) :
    Fragment.callsOfAll renderer.fragments =
      Fragment.callsOfAll renderer.opening ++ Fragment.callsOfAll renderer.content := by
  cases h : renderer.closing <;> simp [Renderer.fragments, h]

theorem Calls.of_get? {renderers : Layers Renderer} {outer inner : String} {renderer : Renderer}
    (hget : renderers.get? outer = some renderer)
    (hinner : inner ∈ Fragment.callsOfAll renderer.fragments) : Calls renderers outer inner := by
  rw [Renderer.callsOfAll_fragments] at hinner
  exact ⟨renderer, hget, hinner⟩

/-- From an element, a cycle of calls can be reached. -/
def LeadsToCycle (renderers : Layers Renderer) (name : String) : Prop :=
  ∃ inner, ReflTransGen (Calls renderers) name inner ∧ TransGen (Calls renderers) inner inner

theorem LeadsToCycle.of_calls {renderers : Layers Renderer} {outer inner : String}
    (hcall : Calls renderers outer inner) (h : LeadsToCycle renderers inner) :
    LeadsToCycle renderers outer := by
  obtain ⟨last, hreach, hcycle⟩ := h
  exact ⟨last, hreach.head hcall, hcycle⟩

/-! ## Walking over fragments -/

namespace Fragment

variable {call call' : String → Except RenderFault (List Piece)}

@[simp] theorem pieces_text (markup : String) :
    (Fragment.text markup).pieces call = .ok [.text markup] := by
  rw [pieces]

@[simp] theorem pieces_classes (names : List (Option String)) :
    (Fragment.classes names).pieces call = .ok [.classes names] := by
  rw [pieces]

@[simp] theorem pieces_element (name : String) :
    (Fragment.element name).pieces call = call name := by
  rw [pieces]

@[simp] theorem pieces_splice (content : List Fragment) :
    (Fragment.splice content).pieces call = piecesOfAll call content := by
  rw [pieces]

@[simp] theorem piecesOfAll_nil : piecesOfAll call [] = .ok [] := by
  rw [piecesOfAll]

/-- The walk over a single call is the call. -/
theorem piecesOfAll_element_singleton (name : String) :
    piecesOfAll call [.element name] = call name := by
  rw [piecesOfAll, pieces_element, piecesOfAll_nil]
  cases call name with
  | error fault => rfl
  | ok pieces => exact congrArg Except.ok (List.append_nil pieces)

/-- The walk succeeds on a list when it does on the first fragment and on the rest. -/
theorem piecesOfAll_cons_eq_ok {fragment : Fragment} {fragments : List Fragment}
    {pieces : List Piece} :
    piecesOfAll call (fragment :: fragments) = .ok pieces ↔
      ∃ first rest, fragment.pieces call = .ok first ∧
        piecesOfAll call fragments = .ok rest ∧ pieces = first ++ rest := by
  rw [piecesOfAll]
  constructor
  · intro h
    obtain ⟨first, hfirst, h⟩ := bind_eq_ok_iff.1 h
    obtain ⟨rest, hrest, h⟩ := bind_eq_ok_iff.1 h
    cases h
    exact ⟨first, rest, hfirst, hrest, rfl⟩
  · rintro ⟨first, rest, hfirst, hrest, rfl⟩
    rw [hfirst, hrest]
    rfl

/-- The walk succeeds on two lists in a row when it does on each of them. -/
theorem piecesOfAll_append_eq_ok {xs ys : List Fragment} {pieces : List Piece} :
    piecesOfAll call (xs ++ ys) = .ok pieces ↔
      ∃ first rest, piecesOfAll call xs = .ok first ∧ piecesOfAll call ys = .ok rest ∧
        pieces = first ++ rest := by
  induction xs generalizing pieces with
  | nil => simp [eq_comm]
  | cons x xs ih =>
      rw [List.cons_append, piecesOfAll_cons_eq_ok]
      constructor
      · rintro ⟨first, rest, hfirst, hrest, rfl⟩
        obtain ⟨middle, last, hmiddle, hlast, rfl⟩ := ih.1 hrest
        exact ⟨first ++ middle, last, piecesOfAll_cons_eq_ok.2 ⟨first, middle, hfirst, hmiddle, rfl⟩,
          hlast, (List.append_assoc _ _ _).symm⟩
      · rintro ⟨front, last, hfront, hlast, rfl⟩
        obtain ⟨first, middle, hfirst, hmiddle, rfl⟩ := piecesOfAll_cons_eq_ok.1 hfront
        exact ⟨first, middle ++ last, hfirst, ih.2 ⟨middle, last, hmiddle, hlast, rfl⟩,
          List.append_assoc _ _ _⟩

/-- The walk fails on a list with a fault of the first fragment or of the rest. -/
theorem piecesOfAll_cons_eq_error {fragment : Fragment} {fragments : List Fragment}
    {fault : RenderFault} (h : piecesOfAll call (fragment :: fragments) = .error fault) :
    fragment.pieces call = .error fault ∨ piecesOfAll call fragments = .error fault := by
  rw [piecesOfAll] at h
  cases hfirst : fragment.pieces call with
  | error other =>
      rw [hfirst] at h
      cases h
      exact Or.inl rfl
  | ok first =>
      rw [hfirst] at h
      cases hrest : piecesOfAll call fragments with
      | error other =>
          rw [hrest] at h
          cases h
          exact Or.inr rfl
      | ok rest =>
          rw [hrest] at h
          cases h

/-- Only the calls of fragments matter to their walk. -/
theorem piecesOfAll_congr {fragments : List Fragment} :
    (∀ name ∈ callsOfAll fragments, call name = call' name) →
      piecesOfAll call fragments = piecesOfAll call' fragments := by
  induction fragments using Fragment.inductAll with
  | nil => simp
  | text markup fragments ih | classes names fragments ih =>
      intro h
      rw [piecesOfAll, piecesOfAll, ih (by simpa using h)]
      simp
  | element name fragments ih =>
      intro h
      simp only [callsOfAll_element, List.forall_mem_cons] at h
      rw [piecesOfAll, piecesOfAll, ih h.2, pieces_element, pieces_element, h.1]
  | splice content fragments ihContent ih =>
      intro h
      simp only [callsOfAll_splice, List.forall_mem_append] at h
      rw [piecesOfAll, piecesOfAll, ih h.2, pieces_splice, pieces_splice, ihContent h.1]

/-- A walk fails with the fault of one of its calls. -/
theorem exists_call_of_piecesOfAll_eq_error {fragments : List Fragment} {fault : RenderFault} :
    piecesOfAll call fragments = .error fault →
      ∃ name ∈ callsOfAll fragments, call name = .error fault := by
  induction fragments using Fragment.inductAll with
  | nil =>
      intro h
      simp at h
  | text markup fragments ih | classes names fragments ih =>
      intro h
      have hrest := (piecesOfAll_cons_eq_error h).resolve_left (by simp)
      simpa using ih hrest
  | element name fragments ih =>
      intro h
      rcases piecesOfAll_cons_eq_error h with hfirst | hrest
      · exact ⟨name, by simp, by simpa using hfirst⟩
      · obtain ⟨inner, hmem, hcall⟩ := ih hrest
        exact ⟨inner, by simp [hmem], hcall⟩
  | splice content fragments ihContent ih =>
      intro h
      rcases piecesOfAll_cons_eq_error h with hfirst | hrest
      · obtain ⟨inner, hmem, hcall⟩ := ihContent (by simpa using hfirst)
        exact ⟨inner, by simp [hmem], hcall⟩
      · obtain ⟨inner, hmem, hcall⟩ := ih hrest
        exact ⟨inner, by simp [hmem], hcall⟩

end Fragment

/-! ## Expansions -/

/-- The pieces that fragments stand for when every call is replaced by what the renderer
of the element stands for. -/
inductive Expands (renderers : Layers Renderer) : List Fragment → List Piece → Prop
  /-- No fragments. -/
  | nil : Expands renderers [] []
  /-- Markup stands for itself. -/
  | text (markup : String) {fragments : List Fragment} {rest : List Piece} :
      Expands renderers fragments rest →
      Expands renderers (.text markup :: fragments) (.text markup :: rest)
  /-- Classes stay open. -/
  | classes (names : List (Option String)) {fragments : List Fragment} {rest : List Piece} :
      Expands renderers fragments rest →
      Expands renderers (.classes names :: fragments) (.classes names :: rest)
  /-- A call stands for all fragments of the element's renderer. -/
  | element {name : String} {renderer : Renderer} {fragments : List Fragment}
      {first rest : List Piece} :
      renderers.get? name = some renderer → Expands renderers renderer.fragments first →
      Expands renderers fragments rest →
      Expands renderers (.element name :: fragments) (first ++ rest)
  /-- A splice stands for its content. -/
  | splice {content fragments : List Fragment} {first rest : List Piece} :
      Expands renderers content first → Expands renderers fragments rest →
      Expands renderers (.splice content :: fragments) (first ++ rest)

/-- A walk whose calls expand to what they give is an expansion. -/
theorem Expands.of_piecesOfAll {renderers : Layers Renderer}
    {call : String → Except RenderFault (List Piece)}
    (hcall : ∀ name inner, call name = .ok inner →
      ∃ renderer, renderers.get? name = some renderer ∧
        Expands renderers renderer.fragments inner)
    {fragments : List Fragment} {pieces : List Piece} :
    Fragment.piecesOfAll call fragments = .ok pieces → Expands renderers fragments pieces := by
  induction fragments using Fragment.inductAll generalizing pieces with
  | nil =>
      intro h
      cases Except.ok.inj (Fragment.piecesOfAll_nil.symm.trans h)
      exact .nil
  | text markup fragments ih =>
      intro h
      obtain ⟨first, rest, hfirst, hrest, rfl⟩ := Fragment.piecesOfAll_cons_eq_ok.1 h
      cases Except.ok.inj ((Fragment.pieces_text markup).symm.trans hfirst)
      exact .text markup (ih hrest)
  | classes names fragments ih =>
      intro h
      obtain ⟨first, rest, hfirst, hrest, rfl⟩ := Fragment.piecesOfAll_cons_eq_ok.1 h
      cases Except.ok.inj ((Fragment.pieces_classes names).symm.trans hfirst)
      exact .classes names (ih hrest)
  | element name fragments ih =>
      intro h
      obtain ⟨first, rest, hfirst, hrest, rfl⟩ := Fragment.piecesOfAll_cons_eq_ok.1 h
      rw [Fragment.pieces_element] at hfirst
      obtain ⟨renderer, hget, hexpands⟩ := hcall name first hfirst
      exact .element hget hexpands (ih hrest)
  | splice content fragments ihContent ih =>
      intro h
      obtain ⟨first, rest, hfirst, hrest, rfl⟩ := Fragment.piecesOfAll_cons_eq_ok.1 h
      rw [Fragment.pieces_splice] at hfirst
      exact .splice (ihContent hfirst) (ih hrest)

/-- Fragments have at most one expansion. -/
theorem Expands.unique {renderers : Layers Renderer} {fragments : List Fragment}
    {xs ys : List Piece} (hx : Expands renderers fragments xs)
    (hy : Expands renderers fragments ys) : xs = ys := by
  induction hx generalizing ys with
  | nil =>
      cases hy
      rfl
  | text markup _ ih =>
      cases hy with
      | text _ hrest => rw [ih hrest]
  | classes names _ ih =>
      cases hy with
      | classes _ hrest => rw [ih hrest]
  | element hget _ _ ihFirst ih =>
      cases hy with
      | element hget' hfirst hrest =>
          cases Option.some.inj (hget.symm.trans hget')
          rw [ihFirst hfirst, ih hrest]
  | splice _ _ ihFirst ih =>
      cases hy with
      | splice hfirst hrest => rw [ihFirst hfirst, ih hrest]

/-- The expansion of a call is that of the renderer that is called. -/
theorem expands_element_singleton {renderers : Layers Renderer} {name : String}
    {renderer : Renderer} (hget : renderers.get? name = some renderer) {pieces : List Piece} :
    Expands renderers [.element name] pieces ↔ Expands renderers renderer.fragments pieces := by
  constructor
  · intro h
    cases h with
    | element hget' hfirst hrest =>
        cases Option.some.inj (hget.symm.trans hget')
        cases hrest
        rwa [List.append_nil]
  · intro h
    rw [← List.append_nil pieces]
    exact .element hget h .nil

/-- Every call in fragments that have an expansion is well-founded: following calls from
it comes to an end. -/
theorem Expands.acc {renderers : Layers Renderer} {fragments : List Fragment}
    {pieces : List Piece} (h : Expands renderers fragments pieces) :
    ∀ name ∈ Fragment.callsOfAll fragments,
      Acc (fun inner outer => Calls renderers outer inner) name := by
  induction h with
  | nil => simp
  | text markup _ ih | classes names _ ih => simpa using ih
  | @element name renderer fragments first rest hget _ _ ihFirst ih =>
      rw [Fragment.callsOfAll_element, List.forall_mem_cons]
      refine ⟨Acc.intro name fun inner hinner => ?_, ih⟩
      obtain ⟨other, hother, hmem⟩ := hinner
      cases Option.some.inj (hget.symm.trans hother)
      exact ihFirst inner (by simpa using hmem)
  | splice _ _ ihFirst ih =>
      rw [Fragment.callsOfAll_splice, List.forall_mem_append]
      exact ⟨ihFirst, ih⟩

/-- A well-founded call does not lie on a cycle. -/
theorem not_transGen_self_of_acc {renderers : Layers Renderer} {name : String}
    (h : Acc (fun inner outer => Calls renderers outer inner) name) :
    ¬ TransGen (Calls renderers) name name := by
  induction h with
  | intro name _ ih =>
      intro hcycle
      obtain ⟨inner, hcall, hback⟩ := TransGen.head'_iff.1 hcycle
      exact ih inner hcall (TransGen.tail' hback hcall)

/-- A well-founded call does not lead into a cycle. -/
theorem not_leadsToCycle_of_acc {renderers : Layers Renderer} {name : String}
    (h : Acc (fun inner outer => Calls renderers outer inner) name) :
    ¬ LeadsToCycle renderers name := by
  rintro ⟨last, hreach, hcycle⟩
  have hlast : Acc (fun inner outer => Calls renderers outer inner) last := by
    clear hcycle
    induction hreach with
    | refl => exact h
    | tail _ hcall ih => exact ih.inv hcall
  exact not_transGen_self_of_acc hlast hcycle

end BemMarkup.Template

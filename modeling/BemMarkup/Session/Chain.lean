import BemMarkup.Session.Action

/-!
# Chains of sources

A chain is given by its sources: the first makes a template without a parent, and each
other one extends the template before it. Every template of the chain is rendered as soon
as it is made, as a whole and element by element, so the stages of a chain show what each
source adds.
-/

namespace BemMarkup

/-- What a template of a chain is rendered to. -/
structure Stage where
  /-- The template as a whole. -/
  page : Outcome
  /-- Some of its elements, each with its name. -/
  elements : List (String × Outcome)

namespace Session

/-- Renders elements of a template one after the other. -/
def renderElements (s : Session) (id : String) : List String → List (String × Outcome) × Session
  | [] => ([], s)
  | name :: names =>
    let (outcome, s) := s.perform (.renderElement id name)
    let (outcomes, s) := s.renderElements id names
    ((name, outcome) :: outcomes, s)

/-- Renders a template and some of its elements. -/
def renderStage (s : Session) (id : String) (elements : List String) : Stage × Session :=
  let (page, s) := s.perform (.render id)
  let (outcomes, s) := s.renderElements id elements
  (⟨page, outcomes⟩, s)

/-- The stages of the rest of a chain, where `position` is the number of templates that
are made already. The chain ends at a source that makes no template. -/
def stages (s : Session) (elements : List String) (position : Nat) (parent : Option String) :
    List String → List (Except Refusal Stage)
  | [] => []
  | source :: sources =>
    let id := toString position
    match s.perform (.create id (.source source) ⟨parent, none, none⟩) with
    | (.error refusal, _) => [.error refusal]
    | (.ok _, s) =>
      let (stage, s) := s.renderStage id elements
      .ok stage :: s.stages elements (position + 1) (some id) sources

end Session

/-- The stages of a chain. -/
def renderChain (sources elements : List String) : List (Except Refusal Stage) :=
  Session.initial.stages elements 0 none sources

end BemMarkup

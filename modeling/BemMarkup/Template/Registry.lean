import BemMarkup.Template.Helper
import BemMarkup.Template.Layers

/-!
# The registry of helpers

The registry holds the helpers by name. It starts with one helper, `section`, which gives
back the content of its element; together with a name this makes a region without tags of
its own. Helpers are added until the first template is compiled; from then on the registry
is frozen, and all templates are compiled with the same helpers.

## Main statements

* `Registry.freeze_freeze`: freezing twice is freezing once.
* `Registry.register_of_frozen`: a frozen registry takes no helper.
-/

namespace BemMarkup.Template

/-- The helpers by name, and whether more may be added. -/
structure Registry where
  /-- The helpers. -/
  helpers : Table Helper
  /-- Whether the helpers are final. -/
  isFrozen : Bool

namespace Registry

/-- The registry before anything is registered. -/
def initial : Registry := ⟨Table.empty.insert "section" .content, false⟩

/-- Registers a helper under a name, in place of the one that has the name. -/
def register (registry : Registry) (name : String) (helper : Helper) : Option Registry :=
  if registry.isFrozen then none else some ⟨registry.helpers.insert name helper, false⟩

/-- Makes the helpers final. -/
def freeze (registry : Registry) : Registry := ⟨registry.helpers, true⟩

@[simp] theorem helpers_freeze (registry : Registry) : registry.freeze.helpers = registry.helpers :=
  rfl

@[simp] theorem isFrozen_freeze (registry : Registry) : registry.freeze.isFrozen = true := rfl

/-- Freezing twice is freezing once. -/
@[simp] theorem freeze_freeze (registry : Registry) :
    registry.freeze.freeze = registry.freeze := rfl

/-- A frozen registry stays as it is. -/
theorem freeze_of_frozen {registry : Registry} (h : registry.isFrozen = true) :
    registry.freeze = registry := by
  rw [freeze, ← h]

/-- A frozen registry takes no helper. -/
theorem register_of_frozen {registry : Registry} (h : registry.isFrozen = true) (name : String)
    (helper : Helper) : registry.register name helper = none := by
  simp [register, h]

end Registry

end BemMarkup.Template

import BemMarkup.Document.Tree

/-!
# Attributes in the order of their output

An `AttributeList` has one slot for each attribute. Setting an attribute that has a slot
changes it in place, so the first declaration of an attribute fixes its position, also
across the templates that override it; a new attribute gets a slot at the end.

The value that is set replaces the one before, except for the class: class values add up.

## Main statements

* `names_set`: setting keeps all slots where they are and adds at most one, at the end.
* `nodup_names_set`: no attribute ever gets a second slot.
* `extend_append`: two extensions in a row are one by both lists.
-/

namespace BemMarkup.Template

open Document

/-- The name of the attribute whose values add up. -/
def className : String := "class"

/-- Two class values as one, with a space between them if neither is empty. -/
def joinClasses (first second : String) : String :=
  if first = "" then second else if second = "" then first else first ++ " " ++ second

/-- The attributes of an element in the order of their output. -/
structure AttributeList where
  /-- The slots. -/
  slots : List Attribute
deriving DecidableEq, Repr

namespace AttributeList

/-- The list without attributes. -/
def empty : AttributeList := ⟨[]⟩

/-- What becomes of a slot when its attribute is set to another value. -/
def merge (slot : Attribute) (value : String) : Attribute :=
  ⟨slot.name, if slot.name = className then joinClasses slot.value value else value⟩

/-- The slots after an attribute is set. -/
def setSlots (entry : Attribute) : List Attribute → List Attribute
  | [] => [entry]
  | slot :: slots =>
    if slot.name = entry.name then merge slot entry.value :: slots
    else slot :: setSlots entry slots

/-- Sets an attribute. -/
def set (list : AttributeList) (entry : Attribute) : AttributeList := ⟨setSlots entry list.slots⟩

/-- Sets attributes one after the other. -/
def extend (list : AttributeList) (entries : List Attribute) : AttributeList :=
  entries.foldl set list

/-- The names of the attributes, in the order of their slots. -/
def names (list : AttributeList) : List String := list.slots.map (·.name)

/-- Whether an attribute has a slot. -/
def has (list : AttributeList) (name : String) : Bool :=
  list.slots.any fun slot => slot.name == name

@[simp] theorem merge_name (slot : Attribute) (value : String) :
    (merge slot value).name = slot.name := rfl

@[simp] theorem extend_nil (list : AttributeList) : list.extend [] = list := rfl

@[simp] theorem extend_cons (list : AttributeList) (entry : Attribute) (entries : List Attribute) :
    list.extend (entry :: entries) = (list.set entry).extend entries := rfl

/-- Two extensions in a row are one by both lists. -/
theorem extend_append (list : AttributeList) (xs ys : List Attribute) :
    list.extend (xs ++ ys) = (list.extend xs).extend ys := by
  simp [extend]

theorem names_setSlots (entry : Attribute) (slots : List Attribute) :
    (setSlots entry slots).map (·.name) =
      if entry.name ∈ slots.map (·.name) then slots.map (·.name)
      else slots.map (·.name) ++ [entry.name] := by
  induction slots with
  | nil => simp [setSlots]
  | cons slot slots ih =>
    rw [setSlots]
    by_cases h : slot.name = entry.name
    · simp [h]
    · rw [if_neg h, List.map_cons, ih]
      by_cases h' : entry.name ∈ slots.map (·.name) <;>
        simp [h', Ne.symm h, List.mem_cons]

/-- Setting an attribute keeps all slots where they are and adds at most one, at the
end. -/
theorem names_set (list : AttributeList) (entry : Attribute) :
    (list.set entry).names =
      if entry.name ∈ list.names then list.names else list.names ++ [entry.name] :=
  names_setSlots entry list.slots

/-- No attribute gets a second slot. -/
theorem nodup_names_set {list : AttributeList} (h : list.names.Nodup) (entry : Attribute) :
    (list.set entry).names.Nodup := by
  rw [names_set]
  split
  · exact h
  · rename_i hmem
    refine List.nodup_append.2 ⟨h, by simp, fun a ha b hb => ?_⟩
    rw [List.mem_singleton] at hb
    exact fun heq => hmem (hb ▸ heq ▸ ha)

end AttributeList

end BemMarkup.Template

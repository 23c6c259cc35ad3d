/-!
# Tables by name, and layers of them

A `Table` gives a value to some names. A template has a table of its own for everything it
declares, and its ancestors have theirs: the tables of a whole chain are its `Layers`, the
template's own first. A name that a table does not have is looked up in the next one, so
what a template declares again hides what its ancestors declare.

Only looking up, adding and counting are needed, so a table is a list of pairs and adding
removes the pair that it replaces.

## Main statements

* `Table.get?_insert`: what a table gives after an addition.
* `Layers.get?_cons`: a layer answers first and the rest only for names it lacks.
-/

namespace BemMarkup.Template

/-! ## Tables -/

/-- Values by name. -/
structure Table (α : Type) where
  /-- The names with their values, the one added last first. -/
  entries : List (String × α)

namespace Table

variable {α : Type}

/-- The table without names. -/
def empty : Table α := ⟨[]⟩

/-- The value of a name. -/
def get? (table : Table α) (name : String) : Option α := table.entries.lookup name

/-- The table in which a name has the given value. -/
def insert (table : Table α) (name : String) (value : α) : Table α :=
  ⟨(name, value) :: table.entries.filter fun entry => entry.1 != name⟩

/-- The names of a table. -/
def names (table : Table α) : List String := table.entries.map (·.1)

/-- The number of names of a table. -/
def size (table : Table α) : Nat := table.entries.length

@[simp] theorem get?_empty (name : String) : (empty : Table α).get? name = none := rfl

@[simp] theorem get?_insert_self (table : Table α) (name : String) (value : α) :
    (table.insert name value).get? name = some value := by
  simp [insert, get?]

theorem lookup_filter_of_ne (entries : List (String × α)) {name key : String} (h : key ≠ name) :
    (entries.filter fun entry => entry.1 != name).lookup key = entries.lookup key := by
  induction entries with
  | nil => rfl
  | cons entry entries ih =>
    obtain ⟨other, value⟩ := entry
    by_cases hother : other = name
    · subst hother
      have hbeq : (key == other) = false := by simpa using h
      simp [List.lookup_cons, ih, hbeq]
    · simp [List.lookup_cons, hother, ih]

theorem get?_insert_of_ne (table : Table α) {name key : String} (value : α) (h : key ≠ name) :
    (table.insert name value).get? key = table.get? key := by
  have hbeq : (key == name) = false := by simpa using h
  simp [insert, get?, List.lookup_cons, hbeq, lookup_filter_of_ne table.entries h]

/-- The name that was added has its new value, and every other name the value it had. -/
theorem get?_insert (table : Table α) (name key : String) (value : α) :
    (table.insert name value).get? key = if key = name then some value else table.get? key := by
  split
  · rename_i h
    subst h
    simp
  · exact get?_insert_of_ne table value ‹_›

variable {table : Table α} {name key : String} {value : α}

/-- A value that is found is one of the entries. -/
theorem mem_entries_of_get? (h : table.get? name = some value) :
    (name, value) ∈ table.entries := by
  obtain ⟨entries⟩ := table
  simp only [get?] at h
  induction entries with
  | nil => cases h
  | cons entry entries ih =>
    obtain ⟨other, otherValue⟩ := entry
    rw [List.lookup_cons] at h
    split at h
    · rename_i heq
      cases h
      rw [show name = other by simpa using heq]
      exact List.mem_cons_self
    · exact List.mem_cons_of_mem _ (ih h)

/-- A name that has a value is one of the names of the table. -/
theorem mem_names_of_get? (h : table.get? name = some value) : name ∈ table.names :=
  List.mem_map_of_mem (mem_entries_of_get? h)

/-- Every name of a table has a value. -/
theorem exists_get?_of_mem_names (h : name ∈ table.names) :
    ∃ value, table.get? name = some value := by
  obtain ⟨entries⟩ := table
  simp only [names, get?] at h ⊢
  induction entries with
  | nil => cases h
  | cons entry entries ih =>
    obtain ⟨other, otherValue⟩ := entry
    rw [List.lookup_cons]
    split
    · exact ⟨otherValue, rfl⟩
    · rename_i hne
      rw [List.map_cons, List.mem_cons] at h
      exact ih (h.resolve_left (by simpa using hne))

theorem mem_names_insert_self : name ∈ (table.insert name value).names := List.mem_cons_self

/-- Adding a name loses no other. -/
theorem mem_names_insert_of_mem (h : key ∈ table.names) :
    key ∈ (table.insert name value).names := by
  by_cases hkey : key = name
  · subst hkey
    exact mem_names_insert_self
  · obtain ⟨other, hother⟩ := exists_get?_of_mem_names h
    exact mem_names_of_get? ((get?_insert_of_ne table value hkey).trans hother)

theorem not_mem_names_of_get? (h : table.get? name = none) : name ∉ table.names := by
  intro hname
  obtain ⟨value, hvalue⟩ := exists_get?_of_mem_names hname
  rw [h] at hvalue
  cases hvalue

/-- A name that is not there yet is put in front of the entries. -/
theorem entries_insert_of_not_mem (h : name ∉ table.names) (value : α) :
    (table.insert name value).entries = (name, value) :: table.entries := by
  have hkeep : ∀ entry ∈ table.entries, (entry.1 != name) = true := by
    intro entry hentry
    have hmem : entry.1 ∈ table.names := List.mem_map_of_mem hentry
    simpa using fun heq : entry.1 = name => h (heq ▸ hmem)
  rw [insert, List.filter_eq_self.2 hkeep]

end Table

/-! ## Layers -/

/-- The tables of a template and of its ancestors, its own first. -/
abbrev Layers (α : Type) := List (Table α)

namespace Layers

variable {α : Type}

/-- The value of a name in the first table that has the name. -/
def get? (layers : Layers α) (name : String) : Option α := layers.findSome? (·.get? name)

/-- All names that have a value. -/
def names (layers : Layers α) : List String := layers.flatMap Table.names

@[simp] theorem get?_nil (name : String) : get? ([] : Layers α) name = none := rfl

/-- A layer answers first, and the rest only for names that it lacks. -/
theorem get?_cons (table : Table α) (layers : Layers α) (name : String) :
    get? (table :: layers) name = (table.get? name).or (get? layers name) := by
  simp only [get?, List.findSome?_cons]
  cases table.get? name <;> rfl

@[simp] theorem names_cons (table : Table α) (layers : Layers α) :
    names (table :: layers) = table.names ++ names layers := by
  rw [names, List.flatMap_cons, ← names]

/-- More layers have more names. -/
theorem names_subset {layers more : Layers α} (h : layers ⊆ more) : names layers ⊆ names more := by
  intro name hname
  obtain ⟨table, htable, hname⟩ := List.mem_flatMap.1 hname
  exact List.mem_flatMap.2 ⟨table, h htable, hname⟩

variable {layers : Layers α} {name : String} {value : α}

/-- A value that is found is an entry of some layer. -/
theorem exists_mem_entries_of_get? (h : get? layers name = some value) :
    ∃ table ∈ layers, (name, value) ∈ table.entries := by
  obtain ⟨table, htable, hvalue⟩ := List.exists_of_findSome?_eq_some h
  exact ⟨table, htable, Table.mem_entries_of_get? hvalue⟩

/-- A name that has a value is one of the names. -/
theorem mem_names_of_get? (h : get? layers name = some value) : name ∈ names layers := by
  obtain ⟨table, htable, hvalue⟩ := List.exists_of_findSome?_eq_some h
  exact List.mem_flatMap.2 ⟨table, htable, Table.mem_names_of_get? hvalue⟩

/-- Every name of the layers has a value. -/
theorem exists_get?_of_mem_names (h : name ∈ names layers) :
    ∃ value, get? layers name = some value := by
  obtain ⟨table, htable, hname⟩ := List.mem_flatMap.1 h
  obtain ⟨value, hvalue⟩ := Table.exists_get?_of_mem_names hname
  cases hget : get? layers name with
  | some value => exact ⟨value, rfl⟩
  | none =>
    rw [get?, List.findSome?_eq_none_iff] at hget
    rw [hget table htable] at hvalue
    cases hvalue

end Layers

end BemMarkup.Template

import BemMarkup.Session.Basic

/-!
# The ancestors of a template

A session lists its templates with the last one first, and a template is always listed
before its parent.  `lineage` relies on this: having found a template it looks for the
parent only among those that are listed later.  `Ordered` is the invariant behind it, and
with it a lineage can be unfolded one template at a time without leaving the list.

Adding a template changes no lineage but the one of the new template.  Giving a template
other names changes the entry itself in every lineage that it occurs in; for a template
without children that is its own lineage alone.

## Main results

* `Ordered.lineage_eq`: a lineage is a template followed by the lineage of its parent.
* `lineage_map`: a change of entries that keeps identifiers and parents goes through lineages.
* `exists_child_of_mem_tail`: only parents occur in the lineages of other templates.
-/

namespace BemMarkup

/-! ## The order of a store -/

/-- Every identifier is used once, and every parent is listed behind its children. -/
inductive Ordered : List (String × Template) → Prop
  /-- No templates. -/
  | nil : Ordered []
  /-- A new template in front of the others. -/
  | cons {id : String} {template : Template} {older : List (String × Template)} :
      Ordered older → older.lookup id = none →
      (∀ parent, template.parent = some parent → ∃ t, older.lookup parent = some t) →
      Ordered ((id, template) :: older)

section Lookup

variable {templates older : List (String × Template)} {id key : String} {template : Template}

theorem lookup_cons_self : ((id, template) :: older).lookup id = some template := by
  simp

theorem lookup_cons_of_ne (h : id ≠ key) :
    ((key, template) :: older).lookup id = older.lookup id := by
  have hbeq : (id == key) = false := by simpa using h
  rw [List.lookup_cons, hbeq]

/-- An identifier that is found in a later part of the list is not that of the first entry. -/
theorem ne_of_lookup {t : Template} (hnew : older.lookup key = none)
    (h : older.lookup id = some t) : id ≠ key := by
  rintro rfl
  rw [hnew] at h
  cases h

/-! ## Lineages -/

theorem lineage_cons_self :
    lineage ((id, template) :: older) id =
      (id, template) :: template.parent.elim [] (lineage older) := by
  rw [lineage, if_pos rfl]
  cases template.parent <;> rfl

theorem lineage_cons_of_ne (h : id ≠ key) :
    lineage ((key, template) :: older) id = lineage older id := by
  rw [lineage, if_neg (Ne.symm h)]

/-- Without a template there is no lineage. -/
theorem lineage_of_lookup_none (h : templates.lookup id = none) : lineage templates id = [] := by
  induction templates with
  | nil => rfl
  | cons entry older ih =>
      obtain ⟨key, template⟩ := entry
      by_cases hkey : id = key
      · subst hkey
        rw [lookup_cons_self] at h
        cases h
      · rw [lookup_cons_of_ne hkey] at h
        rw [lineage_cons_of_ne hkey, ih h]

/-- A lineage starts with the template itself. -/
theorem exists_lineage_of_lookup (h : templates.lookup id = some template) :
    ∃ ancestors, lineage templates id = (id, template) :: ancestors := by
  induction templates with
  | nil => cases h
  | cons entry older ih =>
      obtain ⟨key, other⟩ := entry
      by_cases hkey : id = key
      · subst hkey
        rw [lookup_cons_self] at h
        cases h
        exact ⟨_, lineage_cons_self⟩
      · rw [lookup_cons_of_ne hkey] at h
        rw [lineage_cons_of_ne hkey]
        exact ih h

/-- What a lineage starts with is the template of the identifier. -/
theorem lookup_of_lineage {entry : String × Template} {ancestors : List (String × Template)}
    (h : lineage templates id = entry :: ancestors) :
    entry.1 = id ∧ templates.lookup id = some entry.2 := by
  cases hlookup : templates.lookup id with
  | none =>
      rw [lineage_of_lookup_none hlookup] at h
      cases h
  | some template =>
      obtain ⟨rest, hrest⟩ := exists_lineage_of_lookup hlookup
      rw [hrest] at h
      cases h
      exact ⟨rfl, rfl⟩

/-- Whoever is in a lineage is the template itself or an ancestor. -/
theorem eq_or_mem_tail_of_mem_lineage {entry : String × Template}
    (h : entry ∈ lineage templates id) :
    entry.1 = id ∨ entry ∈ (lineage templates id).tail := by
  cases hlineage : lineage templates id with
  | nil =>
      rw [hlineage] at h
      cases h
  | cons first rest =>
      rw [hlineage, List.mem_cons] at h
      obtain rfl | h := h
      · exact .inl (lookup_of_lineage hlineage).1
      · exact .inr h

/-- A lineage consists of templates. -/
theorem lineage_subset (templates : List (String × Template)) (id : String) :
    lineage templates id ⊆ templates := by
  induction templates generalizing id with
  | nil => exact List.Subset.refl _
  | cons entry older ih =>
      obtain ⟨key, template⟩ := entry
      by_cases hkey : id = key
      · subst hkey
        rw [lineage_cons_self]
        refine List.cons_subset_cons _ ?_
        cases template.parent with
        | none => exact List.nil_subset _
        | some parent => exact ih parent
      · rw [lineage_cons_of_ne hkey]
        exact List.subset_cons_of_subset _ (ih id)

end Lookup

section Order

variable {templates : List (String × Template)} {id : String} {template : Template}

/-- The parent of a template is a template. -/
theorem Ordered.exists_parent (hordered : Ordered templates)
    (h : templates.lookup id = some template) {parent : String}
    (hparent : template.parent = some parent) : ∃ t, templates.lookup parent = some t := by
  induction hordered with
  | nil => cases h
  | @cons key other older _ hnew hother ih =>
      have holder : ∃ t, older.lookup parent = some t := by
        by_cases hkey : id = key
        · subst hkey
          rw [lookup_cons_self] at h
          cases h
          exact hother parent hparent
        · rw [lookup_cons_of_ne hkey] at h
          exact ih h
      obtain ⟨t, ht⟩ := holder
      exact ⟨t, by rw [lookup_cons_of_ne (ne_of_lookup hnew ht), ht]⟩

/-- A lineage is a template followed by the lineage of its parent. -/
theorem Ordered.lineage_eq (hordered : Ordered templates)
    (h : templates.lookup id = some template) :
    lineage templates id = (id, template) :: template.parent.elim [] (lineage templates) := by
  induction hordered with
  | nil => cases h
  | @cons key other older holder hnew hother ih =>
      by_cases hkey : id = key
      · subst hkey
        rw [lookup_cons_self] at h
        cases h
        rw [lineage_cons_self]
        cases hp : template.parent with
        | none => rfl
        | some parent =>
            obtain ⟨t, ht⟩ := hother parent hp
            rw [Option.elim_some, Option.elim_some, lineage_cons_of_ne (ne_of_lookup hnew ht)]
      · rw [lookup_cons_of_ne hkey] at h
        rw [lineage_cons_of_ne hkey, ih h]
        cases hp : template.parent with
        | none => rfl
        | some parent =>
            obtain ⟨t, ht⟩ := holder.exists_parent h hp
            rw [Option.elim_some, Option.elim_some, lineage_cons_of_ne (ne_of_lookup hnew ht)]

/-- What follows a template in a lineage is the lineage of its parent. -/
theorem Ordered.lineage_tail (hordered : Ordered templates)
    {first second : String × Template} {rest : List (String × Template)}
    (h : lineage templates id = first :: second :: rest) :
    first.2.parent = some second.1 ∧ lineage templates second.1 = second :: rest := by
  obtain ⟨rfl, hlookup⟩ := lookup_of_lineage h
  rw [hordered.lineage_eq hlookup] at h
  cases hp : first.2.parent with
  | none =>
      rw [hp] at h
      cases h
  | some parent =>
      rw [hp] at h
      have hrest : lineage templates parent = second :: rest := (List.cons.inj h).2
      obtain ⟨hsecond, -⟩ := lookup_of_lineage hrest
      rw [hsecond]
      exact ⟨rfl, hrest⟩

/-- Every ancestor is in the lineage of the parent. -/
theorem Ordered.exists_parent_of_mem_tail (hordered : Ordered templates)
    {ancestor : String × Template} (h : ancestor ∈ (lineage templates id).tail) :
    ∃ child parent, templates.lookup id = some child ∧ child.parent = some parent ∧
      ancestor ∈ lineage templates parent := by
  cases hlookup : templates.lookup id with
  | none =>
      rw [lineage_of_lookup_none hlookup] at h
      cases h
  | some child =>
      rw [hordered.lineage_eq hlookup, List.tail_cons] at h
      cases hp : child.parent with
      | none =>
          rw [hp] at h
          cases h
      | some parent =>
          rw [hp] at h
          exact ⟨child, parent, rfl, hp, h⟩

/-- Nobody is an ancestor of himself. -/
theorem Ordered.nodup_lineage (hordered : Ordered templates) (id : String) :
    ((lineage templates id).map (·.1)).Nodup := by
  induction hordered generalizing id with
  | nil => exact List.nodup_nil
  | @cons key template older _ hnew _ ih =>
      by_cases hkey : id = key
      · subst hkey
        rw [lineage_cons_self, List.map_cons, List.nodup_cons]
        cases template.parent with
        | none => simp
        | some parent =>
            refine ⟨?_, ih parent⟩
            intro hmem
            obtain ⟨entry, hentry, heq⟩ := List.mem_map.1 hmem
            have hne := List.lookup_eq_none_iff.1 hnew entry (lineage_subset older parent hentry)
            simp [heq] at hne
      · rw [lineage_cons_of_ne hkey]
        exact ih id

/-- Only a template without a parent is alone in its lineage. -/
theorem Ordered.parent_eq_none (hordered : Ordered templates)
    (h : lineage templates id = [(id, template)]) : template.parent = none := by
  have hlookup : templates.lookup id = some template := (lookup_of_lineage h).2
  rw [hordered.lineage_eq hlookup] at h
  cases hp : template.parent with
  | none => rfl
  | some parent =>
      obtain ⟨t, ht⟩ := hordered.exists_parent hlookup hp
      obtain ⟨ancestors, hancestors⟩ := exists_lineage_of_lookup ht
      rw [hp, Option.elim_some, hancestors] at h
      cases h

end Order

/-! ## Changes -/

section Change

variable {change : String × Template → String × Template}

/-- Looking up an identifier finds the changed template. -/
theorem lookup_map (hid : ∀ entry, (change entry).1 = entry.1)
    (templates : List (String × Template)) (id : String) :
    (templates.map change).lookup id =
      (templates.lookup id).map fun template => (change (id, template)).2 := by
  induction templates with
  | nil => rfl
  | cons entry older ih =>
      obtain ⟨key, template⟩ := entry
      have hentry : change (key, template) = (key, (change (key, template)).2) :=
        Prod.ext (hid _) rfl
      rw [List.map_cons, hentry]
      by_cases hkey : id = key
      · subst hkey
        rw [lookup_cons_self, lookup_cons_self, Option.map_some]
      · rw [lookup_cons_of_ne hkey, lookup_cons_of_ne hkey, ih]

/-- The entries of a lineage change with the templates, and who they are does not. -/
theorem lineage_map (hid : ∀ entry, (change entry).1 = entry.1)
    (hparent : ∀ entry, (change entry).2.parent = entry.2.parent)
    (templates : List (String × Template)) (id : String) :
    lineage (templates.map change) id = (lineage templates id).map change := by
  induction templates generalizing id with
  | nil => rfl
  | cons entry older ih =>
      obtain ⟨key, template⟩ := entry
      have hentry : change (key, template) = (key, (change (key, template)).2) :=
        Prod.ext (hid _) rfl
      rw [List.map_cons, hentry]
      by_cases hkey : id = key
      · subst hkey
        rw [lineage_cons_self, lineage_cons_self, hparent, List.map_cons, ← hentry]
        cases template.parent with
        | none => rfl
        | some parent => rw [Option.elim_some, Option.elim_some, ih]
      · rw [lineage_cons_of_ne hkey, lineage_cons_of_ne hkey, ih]

theorem Ordered.map {templates : List (String × Template)} (hordered : Ordered templates)
    (hid : ∀ entry, (change entry).1 = entry.1)
    (hparent : ∀ entry, (change entry).2.parent = entry.2.parent) :
    Ordered (templates.map change) := by
  induction hordered with
  | nil => exact .nil
  | @cons key template older _ hnew hother ih =>
      have hentry : change (key, template) = (key, (change (key, template)).2) :=
        Prod.ext (hid _) rfl
      rw [List.map_cons, hentry]
      refine .cons ih ?_ ?_
      · rw [lookup_map hid, hnew, Option.map_none]
      · intro parent hp
        rw [hparent] at hp
        obtain ⟨t, ht⟩ := hother parent hp
        exact ⟨_, by rw [lookup_map hid, ht, Option.map_some]⟩

end Change

/-- Every ancestor of a template is the parent of some template. -/
theorem exists_child_of_mem_tail {templates : List (String × Template)} {id : String}
    {ancestor : String × Template} (h : ancestor ∈ (lineage templates id).tail) :
    ∃ entry ∈ templates, entry.2.parent = some ancestor.1 := by
  induction templates generalizing id with
  | nil => cases h
  | cons entry older ih =>
      obtain ⟨key, template⟩ := entry
      -- among the older templates, an ancestor is a parent in front of it or further back
      have holder : ∀ {id}, ancestor ∈ (lineage older id).tail →
          ∃ entry ∈ (key, template) :: older, entry.2.parent = some ancestor.1 := by
        intro id h
        obtain ⟨child, hchild, hparent⟩ := ih h
        exact ⟨child, List.mem_cons_of_mem _ hchild, hparent⟩
      by_cases hkey : id = key
      · subst hkey
        rw [lineage_cons_self, List.tail_cons] at h
        cases hp : template.parent with
        | none =>
            rw [hp] at h
            cases h
        | some parent =>
            rw [hp, Option.elim_some] at h
            cases hlineage : lineage older parent with
            | nil =>
                rw [hlineage] at h
                cases h
            | cons first rest =>
                have hfirst := (lookup_of_lineage hlineage).1
                rw [hlineage] at h
                rcases List.mem_cons.1 h with rfl | hrest
                · exact ⟨(id, template), List.mem_cons_self, by rw [hfirst, ← hp]⟩
                · have hmem : ancestor ∈ (lineage older parent).tail := by
                    rw [hlineage]
                    exact hrest
                  exact holder hmem
      · rw [lineage_cons_of_ne hkey] at h
        exact holder h

end BemMarkup

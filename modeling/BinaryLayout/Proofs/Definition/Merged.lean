import BinaryLayout.Definition.Basic
import BinaryLayout.Proofs.Insertion

/-!
# Repeated names of a definition

A definition is merged by keeping each name once, at the place of its first field and with the
descriptor of its last (`names_merged`, `get?_merged`). It is left as it is if and only if no name
is repeated (`merged_eq_self_iff`).
-/

namespace BinaryLayout

namespace Definition

theorem eq_of_fields {first second : Definition} (h : first.fields = second.fields) :
    first = second := by
  obtain ⟨fields, hf⟩ := first
  obtain ⟨others, ho⟩ := second
  cases h
  rfl

theorem append_assoc (first second third : Definition) :
    (first.append second).append third = first.append (second.append third) :=
  eq_of_fields (List.append_assoc _ _ _)

theorem append_empty (definition : Definition) : definition.append empty = definition :=
  eq_of_fields (List.append_nil _)

theorem empty_append (definition : Definition) : empty.append definition = definition := rfl

/-- The definition of one field. -/
def single (field : Field) (h : field.descriptor.count ≠ 0) : Definition :=
  ⟨[field], List.forall_mem_singleton.2 h⟩

/-- A count that is not zero is pushed as it is. -/
theorem push_eq_append (definition : Definition) {field : Field}
    (h : field.descriptor.count ≠ 0) :
    definition.push field.name field.descriptor = definition.append (single field h) := by
  have hr : field.descriptor.repeated field.descriptor.count = field.descriptor := by
    rw [Descriptor.repeated, if_neg h]
  refine eq_of_fields ?_
  simp only [push, hr, append, single]

/-- The descriptors under their names. -/
def entries (definition : Definition) : List (String × Descriptor) :=
  definition.fields.map fun field => (field.name, field.descriptor)

theorem names_entries (definition : Definition) :
    definition.entries.map Prod.fst = definition.names := by
  rw [entries, names, List.map_map]
  rfl

theorem eq_of_entries {first second : Definition} (h : first.entries = second.entries) :
    first = second := by
  refine eq_of_fields ((List.map_inj_right ?_).1 h)
  intro field other he
  obtain ⟨name, d⟩ := field
  obtain ⟨name', d'⟩ := other
  cases he
  rfl

theorem get?_eq (definition : Definition) (name : String) :
    definition.get? name = Entries.get? name definition.entries := by
  rw [get?, entries]
  induction definition.fields with
  | nil => rfl
  | cons field fields ih =>
    by_cases h : field.name = name
    · simp [Entries.get?, h]
    · simpa [Entries.get?, h] using ih

/-- Each name once, at its first place with its last descriptor. -/
def merged (definition : Definition) : Definition where
  fields := (NameMap.ofList definition.entries).entries.map fun e => ⟨e.1, e.2⟩
  count_ne_zero := by
    refine List.forall_mem_map.2 fun e he => ?_
    obtain ⟨field, hf, rfl⟩ := List.mem_map.1 (NameMap.mem_of_mem_ofList he)
    exact definition.count_ne_zero field hf

theorem entries_merged (definition : Definition) :
    definition.merged.entries = (NameMap.ofList definition.entries).entries := by
  rw [entries, merged, List.map_map]
  exact List.map_id _

theorem names_merged (definition : Definition) :
    definition.merged.names = definition.names.eraseDups := by
  have h := NameMap.names_ofList definition.entries
  rw [names_entries] at h
  rw [← h, ← names_entries, entries_merged]
  rfl

theorem nodup_names_merged (definition : Definition) : definition.merged.names.Nodup := by
  rw [← names_entries, entries_merged]
  exact (NameMap.ofList definition.entries).nodup_names

theorem get?_merged {definition : Definition} {before after : List Field} {field : Field}
    (hf : definition.fields = before ++ field :: after)
    (hn : field.name ∉ after.map (·.name)) :
    definition.merged.get? field.name = some field.descriptor := by
  have ha : field.name ∉ (after.map fun f => (f.name, f.descriptor)).map Prod.fst := by
    rw [List.map_map]
    exact hn
  rw [get?_eq, entries_merged, entries, hf, List.map_append, List.map_cons]
  exact NameMap.get?_insertAll_of_last _ _ field.descriptor ha

theorem merged_eq_self_iff {definition : Definition} :
    definition.merged = definition ↔ definition.names.Nodup := by
  constructor
  · intro h
    rw [← h]
    exact nodup_names_merged definition
  · intro h
    refine eq_of_entries ?_
    rw [entries_merged, NameMap.entries_ofList (by rwa [names_entries])]

end Definition

end BinaryLayout

import BinaryLayout.Definition.Json
import BinaryLayout.Proofs.Definition.Merged
import BinaryLayout.Proofs.Descriptor.Canonical
import BinaryLayout.Proofs.Json.Scan

/-!
# Definitions through JSON

A definition is written as an object of canonical descriptor texts. Read field by field it comes
back as it was, for each field pushes what it was written from (`readFields_memberTokens`). Read as
a whole, the object is a map before its members are pushed (`foldlM_pushMember`), so the definition
comes back merged (`read_render`).
-/

namespace BinaryLayout

/-- The member an object has for a field. -/
def Field.member (field : Field) : String × Json := (field.name, .ofText field.descriptor.text)

namespace Definition

theorem toJson_eq (definition : Definition) :
    definition.toJson = .ofMembers (definition.fields.map Field.member) := rfl

theorem isExact_toJson (definition : Definition) : definition.toJson.IsExact :=
  Json.isExact_ofMembers (List.forall_mem_map.2 fun field _ =>
    Json.isExact_ofText field.descriptor.text)

/-! ## Field by field -/

theorem readFields_last {field : Field} (h : field.descriptor.count ≠ 0)
    (definition : Definition) :
    readFields definition
        [.text (some field.name), .colon, .text (some field.descriptor.text), .closeBrace]
      = .ok (definition.append (single field h)) := by
  rw [readFields, Descriptor.parse_text h]
  exact congrArg Except.ok (push_eq_append definition h)

theorem readFields_comma {field : Field} (h : field.descriptor.count ≠ 0)
    (definition : Definition) (rest : List Json.Token) :
    readFields definition
        (.text (some field.name) :: .colon :: .text (some field.descriptor.text) :: .comma :: rest)
      = readFields (definition.append (single field h)) rest := by
  rw [readFields, Descriptor.parse_text h]
  exact congrArg (readFields · rest) (push_eq_append definition h)

theorem readFields_memberTokens : ∀ {fields : List Field} (definition : Definition)
    (h : ∀ field ∈ fields, field.descriptor.count ≠ 0), fields ≠ [] →
      readFields definition (Json.memberTokens
          ((fields.map Field.member).map fun m => (some m.1, m.2)) ++ [.closeBrace])
        = .ok (definition.append ⟨fields, h⟩)
  | [], _, _, hn => absurd rfl hn
  | [field], definition, h, _ => readFields_last (h field List.mem_cons_self) definition
  | field :: other :: fields, definition, h, _ => by
    have hf := h field List.mem_cons_self
    have ho := (List.forall_mem_cons.1 h).2
    have ih := readFields_memberTokens (definition.append (single field hf)) ho
      (List.cons_ne_nil _ _)
    rw [append_assoc] at ih
    exact (readFields_comma hf definition _).trans ih

/-! ## As a whole -/

theorem pushMember_member {field : Field} (h : field.descriptor.count ≠ 0)
    (definition : Definition) :
    definition.pushMember field.member.1 field.member.2
      = .ok (definition.append (single field h)) := by
  rw [Field.member, Json.ofText, pushMember, Descriptor.parse_text h]
  exact congrArg Except.ok (push_eq_append definition h)

theorem foldlM_pushMember : ∀ {fields : List Field} (definition : Definition)
    (h : ∀ field ∈ fields, field.descriptor.count ≠ 0),
      (fields.map Field.member).foldlM
          (fun (definition : Definition) m => definition.pushMember m.1 m.2) definition
        = .ok (definition.append ⟨fields, h⟩)
  | [], definition, _ => congrArg Except.ok (append_empty definition).symm
  | field :: fields, definition, h => by
    have hf := h field List.mem_cons_self
    have ih := foldlM_pushMember (definition.append (single field hf)) (List.forall_mem_cons.1 h).2
    rw [append_assoc] at ih
    rw [List.map_cons, List.foldlM_cons, pushMember_member hf]
    exact ih

/-- The object as a map has the members of the merged definition. -/
theorem entries_ofList_member (definition : Definition) :
    (NameMap.ofList (definition.fields.map Field.member)).entries
      = definition.merged.fields.map Field.member := by
  have hm : definition.fields.map Field.member
      = definition.entries.map fun e => (e.1, Json.ofText e.2.text) := by
    rw [entries, List.map_map]
    rfl
  rw [hm, NameMap.ofList_map (fun d : Descriptor => Json.ofText d.text), NameMap.map, merged,
    List.map_map]
  rfl

theorem members?_render (definition : Definition) :
    (Json.ofStringStrict? definition.render).bind Json.members?
      = some (definition.fields.map Field.member) :=
  Json.members?_render
    (List.forall_mem_map.2 fun field _ => Json.isExact_ofText field.descriptor.text)
    (List.forall_mem_map.2 fun _ _ => Nat.zero_lt_succ _)

theorem readEach_of_tokens {text : String} {name : Option String} {rest : List Json.Token}
    (h : Json.tokens text.toList = .openBrace :: .text name :: rest) :
    readEach text = readFields empty (.text name :: rest) := by
  simp only [readEach, h]

theorem exists_memberTokens (m : Option String × Json) (members : List (Option String × Json)) :
    ∃ rest, Json.memberTokens (m :: members) = .text m.1 :: rest := by
  cases members <;> exact ⟨_, rfl⟩

theorem tokens_render (definition : Definition) :
    Json.tokens definition.render.toList = .openBrace :: (Json.memberTokens
      ((definition.fields.map Field.member).map fun m => (some m.1, m.2)) ++ [.closeBrace]) := by
  rw [render, Json.tokens_render (isExact_toJson definition), toJson_eq, Json.ofMembers,
    Json.toTokens, List.cons_append]

theorem readEach_render (definition : Definition) :
    readEach definition.render = .ok definition := by
  have ht := tokens_render definition
  obtain ⟨fields, h⟩ := definition
  cases fields with
  | nil =>
    -- an object without members is told from the others before a field is read
    have hn : Json.tokens (render ⟨[], h⟩).toList = [.openBrace, .closeBrace] := ht
    simp only [readEach, hn]
    rfl
  | cons field fields =>
    have hr := readFields_memberTokens empty h (List.cons_ne_nil _ _)
    obtain ⟨rest, he⟩ := exists_memberTokens (some field.member.1, field.member.2)
      ((fields.map Field.member).map fun m => (some m.1, m.2))
    rw [List.map_cons, List.map_cons, he, List.cons_append] at ht hr
    rw [readEach_of_tokens ht, hr, empty_append]

theorem read_render (definition : Definition) :
    read definition.render = .ok definition.merged := by
  rw [read, members?_render]
  simp only []
  rw [entries_ofList_member, foldlM_pushMember empty definition.merged.count_ne_zero]
  rfl

/-- Field by field, a definition is read back as it was, with its repeated names. As a whole, it is
read back with each name once, at its first place with its last descriptor; so it is the same
definition if and only if no name is repeated. -/
theorem readers_render (definition : Definition) :
    readEach definition.render = .ok definition ∧
      read definition.render = .ok definition.merged ∧
      definition.merged.names = definition.names.eraseDups ∧
      (∀ before field after, definition.fields = before ++ field :: after →
        field.name ∉ after.map (·.name) →
          definition.merged.get? field.name = some field.descriptor) ∧
      (read definition.render = .ok definition ↔ definition.names.Nodup) := by
  refine ⟨readEach_render definition, read_render definition, names_merged definition,
    fun _ _ _ hf hn => get?_merged hf hn, ?_⟩
  rw [read_render, Except.ok.injEq, merged_eq_self_iff]

/-- A line feed names the first and the last of three fields. -/
theorem readers_render_repeated :
    let definition : Definition := ⟨[⟨"\n", ⟨.int24, 7, some .big⟩⟩, ⟨"\u00e9", .ofTag .char⟩,
      ⟨"\n", ⟨.uint8, 4294967295, none⟩⟩], by decide⟩
    readEach definition.render = .ok definition ∧
      definition.merged.names = ["\n", "\u00e9"] ∧
      definition.merged.get? "\n" = some ⟨.uint8, 4294967295, none⟩ ∧
      read definition.render ≠ .ok definition := by
  intro definition
  obtain ⟨he, -, hn, hl, hr⟩ := readers_render definition
  refine ⟨he, hn.trans (by decide), ?_, mt hr.1 (by decide)⟩
  exact hl [⟨"\n", ⟨.int24, 7, some .big⟩⟩, ⟨"\u00e9", .ofTag .char⟩]
    ⟨"\n", ⟨.uint8, 4294967295, none⟩⟩ [] rfl List.not_mem_nil

end Definition

end BinaryLayout

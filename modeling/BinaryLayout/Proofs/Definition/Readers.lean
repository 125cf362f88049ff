import BinaryLayout.Proofs.Definition.Json
import Mathlib.Data.List.Forall2
import Mathlib.Data.List.Nodup

/-!
# The two readers of a definition

Each reader gives a definition exactly if the members it looks at describe the entries of it, one by
one (`Describes`, `read_eq_ok_iff`, `readEach_eq_ok_iff`). Field by field these are the members as
they are written, as a whole those of a map, and inserting into two maps keeps them one by one
(`NameMap.forall₂_ofList`). So what is read field by field is read as a whole too, merged, and both
readers agree where no key is repeated (`readers_agree`).
-/

namespace BinaryLayout

namespace Entries

variable {α β : Type} {R : String × α → String × β → Prop}

theorem forall₂_put (hR : ∀ e f, R e f → e.1 = f.1) {e : String × α} {f : String × β}
    (h : R e f) {es : List (String × α)} {fs : List (String × β)} (hs : List.Forall₂ R es fs) :
    List.Forall₂ R (put e.1 e.2 es) (put f.1 f.2 fs) := by
  induction hs with
  | nil => exact .cons h .nil
  | @cons a b as bs ha hs ih =>
    by_cases he : a.1 = e.1
    · have hf : b.1 = f.1 := by rw [← hR a b ha, he, hR e f h]
      rw [put, put, if_pos he, if_pos hf]
      exact .cons h hs
    · have hf : ¬b.1 = f.1 := by rwa [← hR a b ha, ← hR e f h]
      rw [put, put, if_neg he, if_neg hf]
      exact .cons ha ih

end Entries

theorem NameMap.forall₂_ofList {α β : Type} {R : String × α → String × β → Prop}
    (hR : ∀ e f, R e f → e.1 = f.1) {es : List (String × α)} {fs : List (String × β)}
    (h : List.Forall₂ R es fs) :
    List.Forall₂ R (NameMap.ofList es).entries (NameMap.ofList fs).entries :=
  List.rel_foldl (P := fun (m : NameMap α) (n : NameMap β) => List.Forall₂ R m.entries n.entries)
    (fun _ _ hm _ _ he => Entries.forall₂_put hR he hm) .nil h

namespace Definition

/-- A member of an object whose text is that of the descriptor of an entry, under the same name. -/
def Describes (m : String × Json) (e : String × Descriptor) : Prop :=
  m.1 = e.1 ∧ ∃ text, m.2 = .ofText text ∧ Descriptor.parse text = .ok e.2

theorem Describes.member {members : List (String × Json)} {es : List (String × Descriptor)}
    (h : List.Forall₂ Describes members es) : ∀ m ∈ members, m.2.IsExact ∧ m.2.depth = 0 := by
  induction h with
  | nil => simp
  | cons he _ ih =>
    obtain ⟨-, text, hj, -⟩ := he
    rw [List.forall_mem_cons, hj]
    exact ⟨⟨Json.isExact_ofText text, rfl⟩, ih⟩

theorem entries_push {text : String} {d : Descriptor} (h : Descriptor.parse text = .ok d)
    (definition : Definition) (name : String) :
    (definition.push name d).entries = definition.entries ++ [(name, d)] := by
  have hc : d.count ≠ 0 := Descriptor.count_ne_zero_of_parse h
  have hr : d.repeated d.count = d := by
    rw [Descriptor.repeated, if_neg hc]
  simp only [entries, push, hr, List.map_append, List.map_singleton]

/-! ## As a whole -/

theorem pushMember_eq_ok_iff {definition next : Definition} {name : String} {j : Json} :
    definition.pushMember name j = .ok next ↔
      ∃ d, Describes (name, j) (name, d) ∧ next.entries = definition.entries ++ [(name, d)] := by
  constructor
  · intro h
    unfold pushMember at h
    split at h
    · rename_i text
      rcases hd : Descriptor.parse text with e | d <;> rw [hd] at h <;> cases h
      exact ⟨d, ⟨rfl, text, rfl, hd⟩, entries_push hd definition name⟩
    · cases h
  · rintro ⟨d, ⟨-, text, hj, hd⟩, he⟩
    have hn : next = definition.push name d := eq_of_entries (by rw [he, entries_push hd])
    simp only at hj hd
    rw [hj, Json.ofText, pushMember, hd, hn]
    rfl

theorem foldlM_pushMember_eq_ok_iff : ∀ {members : List (String × Json)}
    {definition next : Definition},
    members.foldlM (fun (definition : Definition) m => definition.pushMember m.1 m.2) definition
        = .ok next ↔
      ∃ es, List.Forall₂ Describes members es ∧ next.entries = definition.entries ++ es
  | [], definition, next => by
    simp only [List.foldlM_nil, List.forall₂_nil_left_iff, exists_eq_left, List.append_nil]
    constructor
    · rintro ⟨⟩
      rfl
    · intro h
      rw [eq_of_entries h]
      rfl
  | m :: members, definition, next => by
    rw [List.foldlM_cons]
    constructor
    · intro h
      rcases hp : definition.pushMember m.1 m.2 with e | middle <;> rw [hp] at h
      · cases h
      obtain ⟨d, hd, he⟩ := pushMember_eq_ok_iff.1 hp
      obtain ⟨es, hs, hn⟩ := foldlM_pushMember_eq_ok_iff.1 h
      refine ⟨(m.1, d) :: es, .cons hd hs, ?_⟩
      rw [hn, he, List.append_assoc, List.singleton_append]
    · rintro ⟨es, hs, hn⟩
      cases hs with
      | @cons _ e _ es he hs =>
        obtain ⟨name, d⟩ := e
        obtain ⟨rfl, text, hj, hd⟩ := he
        have hp : definition.pushMember m.1 m.2 = .ok (definition.push m.1 d) :=
          pushMember_eq_ok_iff.2 ⟨d, ⟨rfl, text, hj, hd⟩, entries_push hd definition m.1⟩
        rw [hp]
        refine foldlM_pushMember_eq_ok_iff.2 ⟨es, hs, ?_⟩
        rw [hn, entries_push hd, List.append_assoc, List.singleton_append]

/-- Read as a whole, the members of the object as a map describe the definition. -/
theorem read_eq_ok_iff {text : String} {definition : Definition} :
    read text = .ok definition ↔
      ∃ members, (Json.ofStringStrict? text).bind Json.members? = some members ∧
        List.Forall₂ Describes (NameMap.ofList members).entries definition.entries := by
  unfold read
  split
  · rename_i hn
    simp [hn]
  · rename_i members hm
    simp only [hm, Option.some.injEq, exists_eq_left', foldlM_pushMember_eq_ok_iff]
    constructor
    · rintro ⟨es, hs, he⟩
      rw [he]
      exact hs
    · intro h
      exact ⟨_, h, rfl⟩

/-! ## Field by field -/

/-- The tokens of the members of an object behind its opening brace. -/
def closingTokens (members : List (String × Json)) : List Json.Token :=
  Json.memberTokens (members.map fun m => (some m.1, m.2)) ++ [.closeBrace]

theorem readFields_of_describes {members : List (String × Json)}
    {es : List (String × Descriptor)} {definition next : Definition}
    (h : List.Forall₂ Describes members es) (hm : members ≠ [])
    (hn : next.entries = definition.entries ++ es) :
    readFields definition (closingTokens members) = .ok next := by
  induction h generalizing definition with
  | nil => exact absurd rfl hm
  | @cons m e members es he hs ih =>
    obtain ⟨name, j⟩ := m
    obtain ⟨_, d⟩ := e
    obtain ⟨rfl, text, rfl, hd⟩ := he
    cases hs with
    | nil =>
      have he : next = definition.push name d := eq_of_entries (by rw [hn, entries_push hd])
      rw [he]
      simp only [closingTokens, List.map_cons, List.map_nil, Json.memberTokens, Json.ofText,
        Json.toTokens, List.cons_append, List.nil_append, readFields, hd]
    | @cons m _ members _ _ _ =>
      have ih : readFields (definition.push name d) (closingTokens (m :: members)) = .ok next := by
        refine ih (List.cons_ne_nil _ _) ?_
        rw [hn, entries_push hd, List.append_assoc, List.singleton_append]
      simp only [closingTokens, List.map_cons, Json.memberTokens, Json.ofText, Json.toTokens,
        List.cons_append, List.nil_append, readFields, hd] at ih ⊢
      exact ih

theorem exists_describes_of_readFields {ts : List Json.Token} {definition next : Definition}
    (h : readFields definition ts = .ok next) :
    ∃ members es, members ≠ [] ∧ ts = closingTokens members ∧
      List.Forall₂ Describes members es ∧ next.entries = definition.entries ++ es := by
  fun_induction readFields definition ts with
  | case1 => cases h
  | case2 definition name text d hd =>
    cases h
    refine ⟨[(name, .ofText text)], [(name, d)], List.cons_ne_nil _ _, rfl, ?_,
      entries_push hd definition name⟩
    exact .cons ⟨rfl, text, rfl, hd⟩ .nil
  | case3 definition name text d hd rest ih =>
    obtain ⟨members, es, hm, rfl, hs, hn⟩ := ih h
    obtain ⟨m, members, rfl⟩ := List.exists_cons_of_ne_nil hm
    refine ⟨(name, .ofText text) :: m :: members, (name, d) :: es, List.cons_ne_nil _ _, rfl,
      .cons ⟨rfl, text, rfl, hd⟩ hs, ?_⟩
    rw [hn, entries_push hd, List.append_assoc, List.singleton_append]
  | case4 => cases h
  | case5 => cases h

theorem ofString?_eq_ofMembers_iff {text : String} {members : List (String × Json)} :
    Json.ofString? text = some (.ofMembers members) ↔
      Json.tokens text.toList = .openBrace :: closingTokens members := by
  rw [Json.ofString?_eq_some_iff, Json.ofMembers, Json.toTokens, closingTokens, List.cons_append]

/-- Read field by field, the members of the object describe the definition as they are written. -/
theorem readEach_eq_ok_iff {text : String} {definition : Definition} :
    readEach text = .ok definition ↔
      ∃ members, Json.ofString? text = some (.ofMembers members) ∧
        List.Forall₂ Describes members definition.entries := by
  simp only [ofString?_eq_ofMembers_iff]
  constructor
  · intro h
    unfold readEach at h
    split at h
    · rename_i ht
      cases h
      exact ⟨[], ht, .nil⟩
    · rename_i ht
      obtain ⟨members, es, -, rfl, hs, he⟩ := exists_describes_of_readFields h
      rw [he]
      exact ⟨members, ht, hs⟩
    · cases h
  · rintro ⟨members, ht, hs⟩
    cases members with
    | nil =>
      have he : definition = empty := eq_of_entries (List.forall₂_nil_left_iff.1 hs)
      have ht : Json.tokens text.toList = [.openBrace, .closeBrace] := ht
      simp only [readEach, ht, he]
    | cons m members =>
      obtain ⟨rest, hr⟩ := exists_memberTokens (some m.1, m.2)
        (members.map fun m => (some m.1, m.2))
      have hf : readFields empty (closingTokens (m :: members)) = .ok definition :=
        readFields_of_describes hs (List.cons_ne_nil _ _) rfl
      rw [closingTokens, List.map_cons, hr, List.cons_append] at ht hf
      rw [readEach_of_tokens ht, hf]

/-! ## Agreement -/

theorem Describes.names_eq {members : List (String × Json)} {es : List (String × Descriptor)}
    (h : List.Forall₂ Describes members es) : members.map Prod.fst = es.map Prod.fst := by
  induction h with
  | nil => rfl
  | cons he _ ih => rw [List.map_cons, List.map_cons, he.1, ih]

/-- An object of descriptor texts has no leaf that cannot be read, and is not nested. -/
theorem members?_of_describes {text : String} {members : List (String × Json)}
    {es : List (String × Descriptor)} (ht : Json.ofString? text = some (.ofMembers members))
    (h : List.Forall₂ Describes members es) :
    (Json.ofStringStrict? text).bind Json.members? = some members := by
  have hm := Describes.member h
  have hr : (Json.ofMembers members).isReadable = true :=
    Json.isReadable_of_isExact _ (Json.isExact_ofMembers fun m hm' => (hm m hm').1)
  have hd : (Json.ofMembers members).depth ≤ Json.maxDepth := by
    refine Nat.succ_le_of_lt (Nat.lt_of_le_of_lt (Json.depthOfMembers_le fun m hm' => ?_)
      (show 0 < Json.maxDepth by decide))
    exact Nat.le_of_eq (hm m hm').2
  rw [Json.ofStringStrict?, ht, Option.filter_some, hr]
  simp [hd, Json.members?_ofMembers]

/-- If a text is an object, no key of it is repeated. -/
def HasDistinctKeys (text : String) : Prop :=
  ∀ members, Json.ofString? text = some (.object members) → (members.map Prod.fst).Nodup

theorem read_of_readEach {text : String} {definition : Definition}
    (h : readEach text = .ok definition) : read text = .ok definition.merged := by
  obtain ⟨members, ht, hs⟩ := readEach_eq_ok_iff.1 h
  refine read_eq_ok_iff.2 ⟨members, members?_of_describes ht hs, ?_⟩
  rw [entries_merged]
  exact NameMap.forall₂_ofList (fun _ _ he => he.1) hs

theorem HasDistinctKeys.nodup {text : String} (hk : HasDistinctKeys text)
    {members : List (String × Json)} (ht : Json.ofString? text = some (.ofMembers members)) :
    (members.map Prod.fst).Nodup := by
  have hn := hk _ ht
  rw [List.map_map] at hn
  refine List.Nodup.of_map some ?_
  rw [List.map_map]
  exact hn

theorem readEach_of_read {text : String} (hk : HasDistinctKeys text) {definition : Definition}
    (h : read text = .ok definition) : readEach text = .ok definition := by
  obtain ⟨members, hm, hs⟩ := read_eq_ok_iff.1 h
  obtain ⟨j, hj, he⟩ := Option.bind_eq_some_iff.1 hm
  have ht : Json.ofString? text = some (.ofMembers members) := by
    rw [← Json.members?_eq_some_iff.1 he]
    exact (Option.filter_eq_some_iff.1 hj).1
  rw [NameMap.entries_ofList (hk.nodup ht)] at hs
  exact readEach_eq_ok_iff.2 ⟨members, ht, hs⟩

theorem nodup_of_readEach {text : String} (hk : HasDistinctKeys text) {definition : Definition}
    (h : readEach text = .ok definition) : definition.names.Nodup := by
  obtain ⟨members, ht, hs⟩ := readEach_eq_ok_iff.1 h
  rw [← names_entries, ← Describes.names_eq hs]
  exact hk.nodup ht

/-- What is read field by field is read as a whole with each name once, at its first place with its
last descriptor. Of a text without repeated keys both readers give the same definition or none. -/
theorem readers_agree (text : String) :
    (∀ definition, readEach text = .ok definition →
      read text = .ok definition.merged ∧
        definition.merged.names = definition.names.eraseDups ∧
        ∀ before field after, definition.fields = before ++ field :: after →
          field.name ∉ after.map (·.name) →
            definition.merged.get? field.name = some field.descriptor) ∧
      (HasDistinctKeys text →
        ∀ definition, read text = .ok definition ↔ readEach text = .ok definition) := by
  refine ⟨fun definition h => ⟨read_of_readEach h, names_merged definition,
    fun _ _ _ hf hn => get?_merged hf hn⟩, fun hk definition => ⟨readEach_of_read hk, fun h => ?_⟩⟩
  rw [read_of_readEach h, merged_eq_self_iff.2 (nodup_of_readEach hk h)]

/-- A key that is repeated as an escape, and the same two texts under two keys. -/
theorem readers_agree_escaped :
    (readEach "\x7b\"a\":\"INT8\",\"\\u0061\": \"short|be[2]\"\x7d"
        = .ok ⟨[⟨"a", ⟨.int8, 1, none⟩⟩, ⟨"a", ⟨.int16, 2, some .big⟩⟩], by decide⟩ ∧
      read "\x7b\"a\":\"INT8\",\"\\u0061\": \"short|be[2]\"\x7d"
        = .ok ⟨[⟨"a", ⟨.int16, 2, some .big⟩⟩], by decide⟩) ∧
    HasDistinctKeys "\x7b\"a\":\"INT8\",\"\\u0062\": \"short|be[2]\"\x7d" ∧
      read "\x7b\"a\":\"INT8\",\"\\u0062\": \"short|be[2]\"\x7d"
        = .ok ⟨[⟨"a", ⟨.int8, 1, none⟩⟩, ⟨"b", ⟨.int16, 2, some .big⟩⟩], by decide⟩ := by
  have h1 : Descriptor.parse "INT8" = .ok ⟨.int8, 1, none⟩ := by
    rw [Descriptor.parse_eq_ok_iff]
    decide
  have h2 : Descriptor.parse "short|be[2]" = .ok ⟨.int16, 2, some .big⟩ := by
    rw [Descriptor.parse_eq_ok_iff]
    decide
  have hs : ∀ text name, Json.ofString? text = some (.ofMembers
      [("a", .ofText "INT8"), (name, .ofText "short|be[2]")]) →
        readEach text = .ok ⟨[⟨"a", ⟨.int8, 1, none⟩⟩, ⟨name, ⟨.int16, 2, some .big⟩⟩], by simp⟩ :=
    fun text name ht => readEach_eq_ok_iff.2
      ⟨_, ht, .cons ⟨rfl, _, rfl, h1⟩ (.cons ⟨rfl, _, rfl, h2⟩ .nil)⟩
  have ht : Json.ofString? "\x7b\"a\":\"INT8\",\"\\u0061\": \"short|be[2]\"\x7d"
      = some (.ofMembers [("a", .ofText "INT8"), ("a", .ofText "short|be[2]")]) :=
    Json.ofString?_eq_some_iff.2 (by decide +kernel)
  have hu : Json.ofString? "\x7b\"a\":\"INT8\",\"\\u0062\": \"short|be[2]\"\x7d"
      = some (.ofMembers [("a", .ofText "INT8"), ("b", .ofText "short|be[2]")]) :=
    Json.ofString?_eq_some_iff.2 (by decide +kernel)
  have hk : HasDistinctKeys "\x7b\"a\":\"INT8\",\"\\u0062\": \"short|be[2]\"\x7d" := by
    intro members hm
    rw [hu, Option.some_inj, Json.ofMembers, Json.object.injEq] at hm
    rw [← hm]
    decide
  have he := hs _ "a" ht
  exact ⟨⟨he, ((readers_agree _).1 _ he).1⟩, hk, ((readers_agree _).2 hk _).2 (hs _ "b" hu)⟩

end Definition

end BinaryLayout

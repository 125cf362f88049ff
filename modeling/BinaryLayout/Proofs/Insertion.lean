import BinaryLayout.NameMap
import Mathlib.Data.List.Induction

/-!
# Histories of insertions

After any sequence of insertions into the empty map, the names are those inserted in the order of
their first occurrence (`names_ofList`), and under each stands the value inserted last
(`get?_insertAll_of_last`). Names and values together determine a map (`eq_of_get?`). Entries of
distinct names are the map themselves (`entries_ofList`), and changing the values one by one can be
done before or after the insertions (`ofList_map`).
-/

namespace BinaryLayout

universe u

namespace Entries

variable {α : Type u}

theorem eq_of_get? : ∀ {es fs : List (String × α)}, (es.map Prod.fst).Nodup →
    es.map Prod.fst = fs.map Prod.fst →
      (∀ name ∈ es.map Prod.fst, get? name es = get? name fs) → es = fs
  | [], fs, _, hn, _ => (List.map_eq_nil_iff.1 hn.symm).symm
  | e :: es, [], _, hn, _ => by simp at hn
  | e :: es, f :: fs, hd, hn, hg => by
    simp only [List.map_cons, List.cons.injEq] at hn
    simp only [List.map_cons, List.nodup_cons] at hd
    have hv : e.2 = f.2 := by simpa [get?, hn.1] using hg e.1 List.mem_cons_self
    have ht : es = fs := by
      refine eq_of_get? hd.2 hn.2 fun name hm => ?_
      have hne : e.1 ≠ name := fun h => hd.1 (h ▸ hm)
      simpa [get?, hne, ← hn.1] using hg name (List.mem_cons_of_mem _ hm)
    rw [Prod.ext hn.1 hv, ht]

theorem mem_of_mem_put {name : String} {value : α} {e : String × α} :
    ∀ {es : List (String × α)}, e ∈ put name value es → e = (name, value) ∨ e ∈ es
  | [], h => .inl (List.mem_singleton.1 h)
  | f :: fs, h => by
    rw [put] at h
    split at h
    · exact (List.mem_cons.1 h).imp_right (List.mem_cons_of_mem f)
    · rcases List.mem_cons.1 h with h | h
      · exact .inr (h ▸ List.mem_cons_self)
      · exact (mem_of_mem_put h).imp_right (List.mem_cons_of_mem f)

/-- Every entry of another name stays at its place, and none is added. -/
theorem getElem?_put_of_ne {name : String} {e : String × α} (he : e.1 ≠ name) (value : α) :
    ∀ {es : List (String × α)} {i : ℕ}, (put name value es)[i]? = some e ↔ es[i]? = some e
  | [], 0 => by
    have hne : (name, value) ≠ e := fun h => he (h ▸ rfl)
    simp [put, hne]
  | [], i + 1 => by simp [put]
  | f :: fs, i => by
    by_cases hf : f.1 = name
    · have hne : (name, value) ≠ e := fun h => he (h ▸ rfl)
      have hnf : f ≠ e := fun h => he (h ▸ hf)
      cases i <;> simp [put, hf, hne, hnf]
    · cases i <;> simp [put, hf, getElem?_put_of_ne he value]

variable {β : Type u} (f : α → β)

theorem get?_map (name : String) : ∀ es : List (String × α),
    get? name (es.map fun e => (e.1, f e.2)) = (get? name es).map f
  | [] => rfl
  | e :: es => by
    by_cases h : e.1 = name
    · simp [get?, h]
    · simp [get?, h, get?_map name es]

theorem put_map (name : String) (value : α) : ∀ es : List (String × α),
    put name (f value) (es.map fun e => (e.1, f e.2))
      = (put name value es).map fun e => (e.1, f e.2)
  | [] => rfl
  | e :: es => by
    by_cases h : e.1 = name
    · simp [put, h]
    · simp [put, h, put_map name value es]

theorem names_map (es : List (String × α)) :
    (es.map fun e => (e.1, f e.2)).map Prod.fst = es.map Prod.fst := by
  simp [Function.comp_def]

end Entries

namespace NameMap

variable {α : Type u}

theorem insertAll_nil (m : NameMap α) : m.insertAll [] = m := rfl

theorem insertAll_cons (m : NameMap α) (e : String × α) (es : List (String × α)) :
    m.insertAll (e :: es) = (m.insert e.1 e.2).insertAll es := rfl

theorem insertAll_concat (m : NameMap α) (es : List (String × α)) (e : String × α) :
    m.insertAll (es ++ [e]) = (m.insertAll es).insert e.1 e.2 :=
  insertAll_append m es [e]

theorem get?_insertAll_of_notMem {name : String} : ∀ {es : List (String × α)} (m : NameMap α),
    name ∉ es.map Prod.fst → (m.insertAll es).get? name = m.get? name
  | [], _, _ => rfl
  | e :: es, m, h => by
    simp only [List.map_cons, List.mem_cons, not_or] at h
    rw [insertAll_cons, get?_insertAll_of_notMem _ h.2, get?_insert, if_neg h.1]

theorem get?_insertAll_of_last (m : NameMap α) (before : List (String × α)) {name : String}
    (value : α) {after : List (String × α)} (h : name ∉ after.map Prod.fst) :
    (m.insertAll (before ++ (name, value) :: after)).get? name = some value := by
  rw [insertAll_append, insertAll_cons, get?_insertAll_of_notMem _ h, get?_insert, if_pos rfl]

theorem get?_ofList_of_mem {es : List (String × α)} (hd : (es.map Prod.fst).Nodup)
    {e : String × α} (hm : e ∈ es) : (ofList es).get? e.1 = some e.2 := by
  obtain ⟨before, after, rfl⟩ := List.append_of_mem hm
  rw [List.map_append, List.map_cons] at hd
  have hn := (List.nodup_cons.1 (List.nodup_append.1 hd).2.1).1
  exact get?_insertAll_of_last _ before e.2 hn

theorem names_ofList (es : List (String × α)) :
    (ofList es).names = (es.map Prod.fst).eraseDups := by
  induction es using List.reverseRecOn with
  | nil => rfl
  | append_singleton es e ih =>
    rw [ofList] at ih ⊢
    rw [insertAll_concat, names_insert, ih, List.map_append, List.eraseDups_append]
    by_cases h : e.1 ∈ es.map Prod.fst
    · rw [if_pos (List.mem_eraseDups.2 h)]
      simp [List.removeAll, h]
    · rw [if_neg (mt List.mem_eraseDups.1 h)]
      simp [List.removeAll, h, List.eraseDups_cons]

theorem get?_ofList_eq_none_iff {es : List (String × α)} {name : String} :
    (ofList es).get? name = none ↔ name ∉ es.map Prod.fst := by
  rw [get?, Entries.get?_eq_none_iff, ← names, names_ofList, List.mem_eraseDups]

theorem eq_of_get? {m n : NameMap α} (hn : m.names = n.names)
    (hg : ∀ name ∈ m.names, m.get? name = n.get? name) : m = n := by
  obtain ⟨es, he⟩ := m
  obtain ⟨fs, hf⟩ := n
  simp only [mk.injEq]
  exact Entries.eq_of_get? he hn hg

theorem ofList_concat (es : List (String × α)) (e : String × α) :
    ofList (es ++ [e]) = (ofList es).insert e.1 e.2 :=
  insertAll_concat empty es e

theorem get?_insertAll (name : String) : ∀ (es : List (String × α)) (m : NameMap α),
    (m.insertAll es).get? name = (es.reverse.lookup name).or (m.get? name)
  | [], m => by simp [insertAll_nil]
  | e :: es, m => by
    have hl : [e].lookup name = if name = e.1 then some e.2 else none := by
      rw [List.lookup_cons]
      rcases hb : name == e.1 with _ | _
      · rw [if_neg (ne_of_beq_false hb)]
        rfl
      · rw [if_pos (eq_of_beq hb)]
    rw [insertAll_cons, get?_insertAll name es, get?_insert, List.reverse_cons, List.lookup_append,
      Option.or_assoc, hl]
    split_ifs <;> rfl

theorem get?_ofList (name : String) (es : List (String × α)) :
    (ofList es).get? name = es.reverse.lookup name := by
  rw [ofList, get?_insertAll]
  exact Option.or_none

theorem eq_of_entries {m n : NameMap α} (h : m.entries = n.entries) : m = n := by
  obtain ⟨es, he⟩ := m
  obtain ⟨fs, hf⟩ := n
  cases h
  rfl

theorem mem_of_mem_ofList {es : List (String × α)} {e : String × α}
    (h : e ∈ (ofList es).entries) : e ∈ es := by
  induction es using List.reverseRecOn with
  | nil => exact h
  | append_singleton es f ih =>
    rw [ofList_concat] at h
    rw [List.mem_append, List.mem_singleton]
    exact (Entries.mem_of_mem_put h).symm.imp_left ih

/-- Entries of distinct names are put one behind the other. -/
theorem entries_ofList {es : List (String × α)} (h : (es.map Prod.fst).Nodup) :
    (ofList es).entries = es := by
  induction es using List.reverseRecOn with
  | nil => rfl
  | append_singleton es e ih =>
    rw [List.map_append] at h
    obtain ⟨hn, -, hd⟩ := List.nodup_append.1 h
    have he : e.1 ∉ es.map Prod.fst := fun hm => hd _ hm _ (by simp) rfl
    rw [ofList_concat]
    show Entries.put e.1 e.2 (ofList es).entries = es ++ [e]
    rw [ih hn, Entries.put_of_notMem he]

theorem ofList_entries (m : NameMap α) : ofList m.entries = m :=
  eq_of_entries (entries_ofList m.nodup_names)

section Merge

variable (m n : NameMap α)

theorem names_insertAll (es : List (String × α)) :
    (m.insertAll es).names = (m.names ++ es.map Prod.fst).eraseDups := by
  have h : m.insertAll es = ofList (m.entries ++ es) := by
    rw [ofList, insertAll_append, ← ofList, ofList_entries]
  rw [h, names_ofList, List.map_append, names]

theorem get?_insertAll_entries (name : String) :
    (m.insertAll n.entries).get? name = (n.get? name).or (m.get? name) := by
  rw [get?_insertAll, ← get?_ofList, ofList_entries]

/-- Inserting into what is merged, or into the map that is merged into another. -/
theorem insertAll_insert (name : String) (value : α) :
    m.insertAll (n.insert name value).entries = (m.insertAll n.entries).insert name value := by
  by_cases h : name ∈ n.names
  · have hn : (n.insert name value).names = n.names := by rw [names_insert, if_pos h]
    have hm : name ∈ (m.insertAll n.entries).names := by
      rw [names_insertAll, List.mem_eraseDups]
      exact List.mem_append_right _ h
    refine eq_of_get? ?_ fun other _ => ?_
    · rw [names_insert, if_pos hm, names_insertAll, names_insertAll]
      exact congrArg (fun ns => (m.names ++ ns).eraseDups) hn
    · rw [get?_insertAll_entries, get?_insert, get?_insert, get?_insertAll_entries]
      split_ifs <;> rfl
  · have he : (n.insert name value).entries = n.entries ++ [(name, value)] :=
      Entries.put_of_notMem h value
    rw [he, insertAll_concat]

/-- Merging a map that was filled is inserting what it was filled with. -/
theorem insertAll_ofList (es : List (String × α)) :
    m.insertAll (ofList es).entries = m.insertAll es := by
  induction es using List.reverseRecOn with
  | nil => rfl
  | append_singleton es e ih => rw [ofList_concat, insertAll_insert, ih, insertAll_concat]

end Merge

section Map

variable {β : Type u} (f : α → β)

/-- The same names with other values. -/
def map (m : NameMap α) : NameMap β :=
  ⟨m.entries.map fun e => (e.1, f e.2), (Entries.names_map f m.entries).symm ▸ m.nodup_names⟩

theorem names_map (m : NameMap α) : (m.map f).names = m.names := Entries.names_map f m.entries

theorem get?_map (m : NameMap α) (name : String) : (m.map f).get? name = (m.get? name).map f :=
  Entries.get?_map f name m.entries

theorem ofList_map (es : List (String × α)) :
    ofList (es.map fun e => (e.1, f e.2)) = (ofList es).map f := by
  induction es using List.reverseRecOn with
  | nil => rfl
  | append_singleton es e ih =>
    rw [List.map_append, List.map_singleton, ofList_concat, ofList_concat, ih]
    simp only [insert, map, mk.injEq]
    exact Entries.put_map f e.1 e.2 _

end Map

end NameMap

theorem eraseDups_of_nodup : ∀ {names : List String}, names.Nodup → names.eraseDups = names
  | [], _ => rfl
  | name :: names, h => by
    simp only [List.nodup_cons] at h
    have hf : names.filter (fun other => !other == name) = names :=
      List.filter_eq_self.2 fun other hm => by
        simpa using fun he : other = name => h.1 (he ▸ hm)
    rw [List.eraseDups_cons, hf, eraseDups_of_nodup h.2]

end BinaryLayout

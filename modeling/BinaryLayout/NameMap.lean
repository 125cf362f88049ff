/-!
# Maps from names in order of insertion

A list of named entries in which no name occurs twice. Putting an entry under a name that is there
replaces its value and keeps its place; any other entry goes to the end.
-/

namespace BinaryLayout

universe u

namespace Entries

variable {α : Type u}

/-- The value under a name, of the first entry with it. -/
def get? (name : String) : List (String × α) → Option α
  | [] => none
  | e :: es => if e.1 = name then some e.2 else get? name es

/-- Replaces the value under `name`, or appends it. -/
def put (name : String) (value : α) : List (String × α) → List (String × α)
  | [] => [(name, value)]
  | e :: es => if e.1 = name then (name, value) :: es else e :: put name value es

/-- Replaces the value under `name`, or appends it, in one pass that brings back the old value. -/
def exchange (name : String) (value : α) : List (String × α) → Option α × List (String × α)
  | [] => (none, [(name, value)])
  | e :: es =>
    if e.1 = name then (some e.2, (e.1, value) :: es)
    else
      let (old, es) := exchange name value es
      (old, e :: es)

/-- One pass does what looking up and putting do one after the other. -/
theorem exchange_eq (name : String) (value : α) (es : List (String × α)) :
    exchange name value es = (get? name es, put name value es) := by
  induction es with
  | nil => rfl
  | cons e es ih =>
    by_cases h : e.1 = name
    · rw [exchange, if_pos h, get?, if_pos h, put, if_pos h, h]
    · rw [exchange, if_neg h, get?, if_neg h, put, if_neg h, ih]

theorem mem_names_put {name other : String} {value : α} {es : List (String × α)} :
    other ∈ (put name value es).map Prod.fst ↔ other = name ∨ other ∈ es.map Prod.fst := by
  induction es with
  | nil => simp [put]
  | cons e es ih =>
    by_cases h : e.1 = name
    · rw [put, if_pos h]
      simp [h]
    · rw [put, if_neg h, List.map_cons, List.mem_cons, ih, List.map_cons, List.mem_cons]
      exact or_left_comm

theorem nodup_names_put {name : String} {value : α} {es : List (String × α)}
    (h : (es.map Prod.fst).Nodup) : ((put name value es).map Prod.fst).Nodup := by
  induction es with
  | nil => simp [put]
  | cons e es ih =>
    rw [List.map_cons, List.nodup_cons] at h
    by_cases he : e.1 = name
    · rw [put, if_pos he, List.map_cons, List.nodup_cons, ← he]
      exact h
    · rw [put, if_neg he, List.map_cons, List.nodup_cons, mem_names_put]
      exact ⟨fun hm => hm.elim he h.1, ih h.2⟩

theorem get?_eq_none_iff {name : String} {es : List (String × α)} :
    get? name es = none ↔ name ∉ es.map Prod.fst := by
  induction es with
  | nil => simp [get?]
  | cons e es ih =>
    by_cases h : e.1 = name
    · rw [get?, if_pos h]
      simp [h]
    · rw [get?, if_neg h, ih, List.map_cons, List.mem_cons, not_or]
      exact ⟨fun hn => ⟨Ne.symm h, hn⟩, And.right⟩

theorem get?_put_self (name : String) (value : α) (es : List (String × α)) :
    get? name (put name value es) = some value := by
  induction es with
  | nil => simp [put, get?]
  | cons e es ih =>
    by_cases h : e.1 = name
    · rw [put, if_pos h, get?, if_pos rfl]
    · rw [put, if_neg h, get?, if_neg h, ih]

theorem get?_put_of_ne {name other : String} (h : other ≠ name) (value : α)
    (es : List (String × α)) : get? other (put name value es) = get? other es := by
  induction es with
  | nil => simp [put, get?, Ne.symm h]
  | cons e es ih =>
    by_cases he : e.1 = name
    · rw [put, if_pos he, get?, get?, if_neg (Ne.symm h), if_neg (he ▸ Ne.symm h)]
    · rw [put, if_neg he, get?, get?, ih]

theorem names_put_of_mem {name : String} {es : List (String × α)}
    (h : name ∈ es.map Prod.fst) (value : α) :
    (put name value es).map Prod.fst = es.map Prod.fst := by
  induction es with
  | nil => simp at h
  | cons e es ih =>
    by_cases he : e.1 = name
    · rw [put, if_pos he, List.map_cons, List.map_cons, he]
    · rw [put, if_neg he, List.map_cons, List.map_cons,
        ih ((List.mem_cons.1 h).resolve_left (Ne.symm he))]

theorem put_of_notMem {name : String} {es : List (String × α)}
    (h : name ∉ es.map Prod.fst) (value : α) : put name value es = es ++ [(name, value)] := by
  induction es with
  | nil => rfl
  | cons e es ih =>
    rw [List.map_cons, List.mem_cons, not_or] at h
    rw [put, if_neg (Ne.symm h.1), ih h.2, List.cons_append]

end Entries

structure NameMap (α : Type u) where
  entries : List (String × α)
  nodup_names : (entries.map Prod.fst).Nodup

namespace NameMap

variable {α : Type u}

def empty : NameMap α := ⟨[], List.nodup_nil⟩

instance : Inhabited (NameMap α) := ⟨empty⟩

def get? (m : NameMap α) (name : String) : Option α := Entries.get? name m.entries

def contains (m : NameMap α) (name : String) : Bool := (m.get? name).isSome

def insert (m : NameMap α) (name : String) (value : α) : NameMap α :=
  ⟨Entries.put name value m.entries, Entries.nodup_names_put m.nodup_names⟩

/-- Inserts and gives back the value that was there before. -/
def replace (m : NameMap α) (name : String) (value : α) : Option α × NameMap α :=
  let r := Entries.exchange name value m.entries
  have h : (r.2.map Prod.fst).Nodup := by
    rw [show r = _ from Entries.exchange_eq name value m.entries]
    exact Entries.nodup_names_put m.nodup_names
  (r.1, ⟨r.2, h⟩)

/-- Inserts entries one by one, so that the last of a name wins and the first gives its place. -/
def insertAll (m : NameMap α) (entries : List (String × α)) : NameMap α :=
  entries.foldl (fun m e => m.insert e.1 e.2) m

def ofList (entries : List (String × α)) : NameMap α := empty.insertAll entries

def names (m : NameMap α) : List String := m.entries.map Prod.fst

def size (m : NameMap α) : Nat := m.entries.length

def isEmpty (m : NameMap α) : Bool := m.entries.isEmpty

theorem get?_insert (m : NameMap α) (name other : String) (value : α) :
    (m.insert name value).get? other = if other = name then some value else m.get? other := by
  by_cases h : other = name
  · rw [if_pos h, h]
    exact Entries.get?_put_self name value m.entries
  · rw [if_neg h]
    exact Entries.get?_put_of_ne h value m.entries

theorem names_insert (m : NameMap α) (name : String) (value : α) :
    (m.insert name value).names = if name ∈ m.names then m.names else m.names ++ [name] := by
  by_cases h : name ∈ m.names
  · rw [if_pos h]
    exact Entries.names_put_of_mem h value
  · rw [if_neg h]
    show (Entries.put name value m.entries).map Prod.fst = m.names ++ [name]
    rw [Entries.put_of_notMem h, List.map_append]
    rfl

theorem replace_eq (m : NameMap α) (name : String) (value : α) :
    m.replace name value = (m.get? name, m.insert name value) := by
  simp only [replace, insert, get?, Entries.exchange_eq]

theorem insertAll_append (m : NameMap α) (es fs : List (String × α)) :
    m.insertAll (es ++ fs) = (m.insertAll es).insertAll fs := List.foldl_append

end NameMap

end BinaryLayout

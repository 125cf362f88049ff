import BinaryLayout.Proofs.Insertion
import BinaryLayout.Proofs.Json.Scan
import BinaryLayout.Value.Json
import Mathlib.Data.List.Forall2

/-!
# Values through JSON

A value without floating-point numbers is written as texts, integers and arrays of them
(`isExact_toJson`), so it is read back from its text, but for an integer that is not negative, which
is unsigned then (`ofJson?_toJson`). A record is read back with the same names in the same order
(`Record.read?_render`).
-/

namespace BinaryLayout

namespace Value

mutual

/-- No floating-point number at any level. -/
def isFloatFree : Value → Bool
  | .double _ | .single _ => false
  | .list items => areFloatFree items
  | _ => true

def areFloatFree : List Value → Bool
  | [] => true
  | v :: vs => isFloatFree v && areFloatFree vs

end

mutual

/-- With every signed integer that is not negative made unsigned. -/
def plain : Value → Value
  | .signed n => if 0 ≤ n.toInt then .unsigned n.toUInt64 else .signed n
  | .list items => .list (allPlain items)
  | v => v

def allPlain : List Value → List Value
  | [] => []
  | v :: vs => plain v :: allPlain vs

end

theorem allPlain_eq_map : ∀ vs : List Value, allPlain vs = vs.map plain
  | [] => rfl
  | v :: vs => by rw [allPlain, allPlain_eq_map vs, List.map_cons]

theorem areFloatFree_iff {vs : List Value} :
    areFloatFree vs = true ↔ ∀ v ∈ vs, v.isFloatFree = true := by
  induction vs with
  | nil => simp [areFloatFree]
  | cons v vs ih => rw [areFloatFree, Bool.and_eq_true, ih, List.forall_mem_cons]

theorem isExact_ofInt64 (n : Int64) : Json.Token.IsExact (.number (some (.ofInt64 n))) := by
  rw [Json.Number.ofInt64]
  split
  · trivial
  · exact Int.not_le.1 ‹_›

mutual

theorem isExact_toJson : ∀ v : Value, v.isFloatFree = true → v.toJson.IsExact
  | .unsigned _, _ => List.forall_mem_singleton.2 trivial
  | .signed n, _ => List.forall_mem_singleton.2 (isExact_ofInt64 n)
  | .text s, _ => Json.isExact_ofText s
  | .list items, h => by
    have hi := isExact_itemTokens items h
    simp only [Json.IsExact, toJson, Json.toTokens, List.forall_mem_append, List.forall_mem_cons]
    exact ⟨⟨trivial, hi⟩, trivial, by simp⟩

theorem isExact_itemTokens : ∀ vs : List Value, areFloatFree vs = true →
    ∀ t ∈ Json.itemTokens (allToJson vs), t.IsExact
  | [], _ => by simp [allToJson, Json.itemTokens]
  | [v], h => by
    rw [areFloatFree, Bool.and_eq_true] at h
    exact isExact_toJson v h.1
  | v :: w :: vs, h => by
    rw [areFloatFree, Bool.and_eq_true] at h
    have hv := isExact_toJson v h.1
    have hi := isExact_itemTokens (w :: vs) h.2
    simp only [allToJson, Json.itemTokens, List.forall_mem_append, List.forall_mem_cons] at hi ⊢
    exact ⟨hv, trivial, hi⟩

end

mutual

theorem ofJson?_toJson : ∀ v : Value, v.isFloatFree = true → ofJson? v.toJson = some v.plain
  | .unsigned _, _ | .text _, _ => rfl
  | .signed n, _ => by
    simp only [toJson, ofJson?, Json.Number.ofInt64, plain, Option.map_some]
    split <;> rfl
  | .list items, h => by
    rw [toJson, ofJson?, allOfJson?_allToJson items h, plain]
    rfl

theorem allOfJson?_allToJson : ∀ vs : List Value, areFloatFree vs = true →
    allOfJson? (allToJson vs) = some (allPlain vs)
  | [], _ => rfl
  | v :: vs, h => by
    rw [areFloatFree, Bool.and_eq_true] at h
    rw [allToJson, allOfJson?, ofJson?_toJson v h.1, allOfJson?_allToJson vs h.2, allPlain]

end

end Value

namespace Record

/-! ## Records -/

/-- A member whose tree is read as the value of an entry, under the same name. -/
def Describes (m : String × Json) (e : String × Value) : Prop :=
  m.1 = e.1 ∧ Value.ofJson? m.2 = some e.2

/-- A text that is an object whose members are entries, in order. -/
def IsObjectOf (es : List (String × Value)) (text : String) : Prop :=
  ∃ members, Json.ofStringStrict? text = some (.ofMembers members) ∧
    List.Forall₂ Describes members es

theorem mapM_eq_some_iff : ∀ {members : List (String × Json)} {es : List (String × Value)},
    members.mapM (fun m : String × Json => (Value.ofJson? m.2).map (m.1, ·)) = some es ↔
      List.Forall₂ Describes members es
  | [], es => by
    rw [List.forall₂_nil_left_iff, List.mapM_nil]
    exact Option.some_inj.trans eq_comm
  | m :: members, es => by
    simp only [List.mapM_cons, Option.bind_eq_bind, Option.bind_eq_some_iff,
      Option.map_eq_some_iff, Option.pure_def, Option.some.injEq, List.forall₂_cons_left_iff,
      mapM_eq_some_iff]
    constructor
    · rintro ⟨_, ⟨v, hv, rfl⟩, rest, hr, rfl⟩
      exact ⟨_, rest, ⟨rfl, hv⟩, hr, rfl⟩
    · rintro ⟨⟨_, v⟩, rest, ⟨rfl, hv⟩, hr, rfl⟩
      exact ⟨_, ⟨v, hv, rfl⟩, rest, hr, rfl⟩

/-- A record is read from the objects of values, and its entries are inserted as they stand. -/
theorem read?_eq_some_iff {text : String} {r : Record} :
    read? text = some r ↔ ∃ es, IsObjectOf es text ∧ r = .ofList es := by
  simp only [read?, ofJson?, IsObjectOf, Option.bind_eq_some_iff, Option.map_eq_some_iff,
    Json.members?_eq_some_iff, mapM_eq_some_iff]
  constructor
  · rintro ⟨_, hj, members, rfl, es, hs, rfl⟩
    exact ⟨es, ⟨members, hj, hs⟩, rfl⟩
  · rintro ⟨es, ⟨members, hj, hs⟩, rfl⟩
    exact ⟨_, hj, members, rfl, es, hs, rfl⟩

theorem IsObjectOf.read? {es : List (String × Value)} {text : String} (h : IsObjectOf es text) :
    Record.read? text = some (.ofList es) :=
  read?_eq_some_iff.2 ⟨es, h, rfl⟩

theorem isObjectOf_render {r : Record} (hf : ∀ e ∈ r.entries, e.2.isFloatFree = true)
    (hd : ∀ e ∈ r.entries, e.2.toJson.depth < Json.maxDepth) :
    IsObjectOf (r.map Value.plain).entries (render r) := by
  have hm : (Json.ofStringStrict? (render r)).bind Json.members?
      = some (r.entries.map fun e => (e.1, e.2.toJson)) := by
    refine Json.members?_render ?_ ?_
    · exact List.forall_mem_map.2 fun e h => Value.isExact_toJson e.2 (hf e h)
    · exact List.forall_mem_map.2 hd
  obtain ⟨j, hj, hk⟩ := Option.bind_eq_some_iff.1 hm
  obtain rfl := Json.members?_eq_some_iff.1 hk
  refine ⟨_, hj, ?_⟩
  rw [NameMap.map, List.forall₂_map_left_iff, List.forall₂_map_right_iff, List.forall₂_same]
  exact fun e he => ⟨rfl, Value.ofJson?_toJson e.2 (hf e he)⟩

/-- A record without floating-point numbers is read back in its plain form, as long as it is not
nested too deep. -/
theorem read?_render {r : Record} (hf : ∀ e ∈ r.entries, e.2.isFloatFree = true)
    (hd : ∀ e ∈ r.entries, e.2.toJson.depth < Json.maxDepth) :
    Record.read? (Record.render r) = some (r.map Value.plain) := by
  rw [(isObjectOf_render hf hd).read?, NameMap.ofList_entries]

end Record

end BinaryLayout

import BinaryLayout.Proofs.Value.Json
import Mathlib.Data.Finset.Card

/-!
# Records and what was put into them

A record can be filled in several ways: entry by entry, from a sequence of entries, or by reading an
object. However it was done, it is the record that the entries give when they are inserted one after
the other (`Built.eq_ofList`); an object is read as its members in the order in which they stand,
repeated keys included (`read?_eq_some_iff`). So the order of the names, the value under each of
them and what an insertion answers are settled by the entries alone (`keeps_of_built`).
-/

namespace BinaryLayout

namespace Record

/-- The ways to fill a record, with all that was put into it, the latest last. -/
inductive Built : List (String × Value) → Record → Prop
  | empty : Built [] .empty
  | collected (es : List (String × Value)) : Built es (.ofList es)
  | read {es : List (String × Value)} {text : String} {r : Record} : IsObjectOf es text →
    read? text = some r → Built es r
  | inserted {es : List (String × Value)} {r : Record} (name : String) (value : Value) :
    Built es r → Built (es ++ [(name, value)]) (r.insert name value)
  | replaced {es : List (String × Value)} {r : Record} (name : String) (value : Value) :
    Built es r → Built (es ++ [(name, value)]) (r.replace name value).2

/-- Whichever way a record is filled, it is what inserting one entry after the other gives. -/
theorem Built.eq_ofList {es : List (String × Value)} {r : Record} (h : Built es r) :
    r = .ofList es := by
  induction h with
  | empty => rfl
  | collected es => rfl
  | read ht hr => exact Option.some_inj.1 (hr.symm.trans ht.read?)
  | inserted name value _ ih => rw [ih, NameMap.ofList_concat]
  | replaced name value _ ih => rw [NameMap.replace_eq, ih, NameMap.ofList_concat]

/-- What is settled by the entries that were put into a record: the names stand in the order in
which they came first, under each is the value that came last, and an insertion brings back the
value before it and leaves every entry of another name where it is and as it is. -/
structure Keeps (es : List (String × Value)) (r : Record) : Prop where
  names_eq : r.names = (es.map Prod.fst).eraseDups
  nodup_names : r.names.Nodup
  size_eq : r.size = (es.map Prod.fst).toFinset.card
  get?_eq : ∀ name, r.get? name = es.reverse.lookup name
  get?_eq_none_iff : ∀ name, r.get? name = none ↔ name ∉ es.map Prod.fst
  contains_iff : ∀ name, r.contains name = true ↔ name ∈ es.map Prod.fst
  replace_eq : ∀ name value, r.replace name value = (r.get? name, r.insert name value)
  getElem?_insert : ∀ name value (e : String × Value), e.1 ≠ name →
    ∀ i : ℕ, (r.insert name value).entries[i]? = some e ↔ r.entries[i]? = some e

theorem size_ofList (es : List (String × Value)) :
    (NameMap.ofList es).size = (es.map Prod.fst).toFinset.card := by
  have hn : (NameMap.ofList es).names.toFinset = (es.map Prod.fst).toFinset := by
    ext name
    simp [NameMap.names_ofList]
  have hd : (NameMap.ofList es).names.Nodup := NameMap.nodup_names _
  rw [← hn, List.toFinset_card_of_nodup hd, NameMap.names, List.length_map, NameMap.size]

theorem keeps_ofList (es : List (String × Value)) : Keeps es (.ofList es) where
  names_eq := NameMap.names_ofList es
  nodup_names := NameMap.nodup_names _
  size_eq := size_ofList es
  get?_eq name := NameMap.get?_ofList name es
  get?_eq_none_iff _ := NameMap.get?_ofList_eq_none_iff
  contains_iff name := by
    rw [NameMap.contains, Option.isSome_iff_ne_none, ne_eq, NameMap.get?_ofList_eq_none_iff,
      not_not]
  replace_eq := NameMap.replace_eq _
  getElem?_insert _ value _ he _ := Entries.getElem?_put_of_ne he value

/-- Whichever way a record was filled, it keeps what was put into it. A text can be read to fill a
record if it is an object of values, and only then. -/
theorem keeps_of_built :
    (∀ es r, Built es r → Keeps es r) ∧
      ∀ text, (∃ r, read? text = some r) ↔ ∃ es, IsObjectOf es text := by
  constructor
  · intro es r h
    rw [h.eq_ofList]
    exact keeps_ofList es
  · intro text
    constructor
    · rintro ⟨r, h⟩
      obtain ⟨es, ht, -⟩ := read?_eq_some_iff.1 h
      exact ⟨es, ht⟩
    · rintro ⟨es, ht⟩
      exact ⟨_, ht.read?⟩

/-- An object with a key that is repeated in another spelling, then a name that is there already and
a new one. -/
theorem keeps_of_built_repeated :
    ∃ r : Record, Built [("b", .unsigned 1), ("a", .list [.unsigned 7]), ("b", .text "x"),
        ("a", .signed (-2)), ("", .unsigned 0)] r ∧
      r.names = ["b", "a", ""] ∧ r.size = 3 ∧ r.get? "b" = some (.text "x") ∧
      r.get? "a" = some (.signed (-2)) ∧ r.get? "c" = none ∧
      (r.replace "a" (.unsigned 5)).1 = some (.signed (-2)) := by
  have ht : IsObjectOf [("b", .unsigned 1), ("a", .list [.unsigned 7]), ("b", .text "x")]
      "\x7b \"b\":1, \"a\":[7],\"\\u0062\" : \"x\"\x7d" := by
    refine ⟨[("b", .number (some (.natural 1))), ("a", .array [.number (some (.natural 7))]),
        ("b", .text (some "x"))],
      Json.ofStringStrict?_of_tokens (by decide +kernel) rfl (by decide), ?_⟩
    exact .cons ⟨rfl, rfl⟩ (.cons ⟨rfl, rfl⟩ (.cons ⟨rfl, rfl⟩ .nil))
  obtain ⟨hk, hr⟩ := keeps_of_built
  obtain ⟨r, h⟩ := (hr _).2 ⟨_, ht⟩
  have hb := (Built.read ht h).inserted "a" (.signed (-2)) |>.replaced "" (.unsigned 0)
  have k := hk _ _ hb
  refine ⟨_, hb, k.names_eq, k.size_eq, k.get?_eq "b", k.get?_eq "a", k.get?_eq "c", ?_⟩
  rw [k.replace_eq]
  exact k.get?_eq "a"

end Record

end BinaryLayout

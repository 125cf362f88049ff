import BinaryLayout.Proofs.Value.Json
import Mathlib.Data.UInt

/-!
# Reading what was read

A number is scanned as negative only if it is below zero (`isSigned_of_mem_tokens`). So a value
without floating-point numbers that was read is written as the tree it was read from
(`toJson_of_ofJson?`), and a record that was read once is read again as itself
(`Record.read?_render_of_read?`). A record that was not read before settles after one reading
(`Record.read?_render_settles`).
-/

namespace BinaryLayout

namespace Json

/-! ## Signs -/

/-- A negative number is below zero. -/
def Number.IsSigned : Number → Prop
  | .negative n => n.toInt < 0
  | _ => True

theorem NumberParts.isSigned_toNumber? {p : NumberParts} {n : Number}
    (h : p.toNumber? = some n) : n.IsSigned := by
  simp only [NumberParts.toNumber?] at h
  split at h
  · split at h
    · cases h
      trivial
    · split at h
      · rename_i hs
        cases h
        rw [Number.IsSigned, Int64.toInt_ofInt_of_le (by omega) (by omega)]
        omega
      · cases h
        trivial
  · obtain ⟨x, -, rfl⟩ := Option.map_eq_some_iff.1 h
    trivial

/-- What a token says of a number is signed rightly. -/
def Token.IsSigned (t : Token) : Prop := ∀ n, t = .number (some n) → n.IsSigned

theorem isSigned_of_takeToken? {cs rest : List Char} {t : Token}
    (h : takeToken? cs = some (t, rest)) : t.IsSigned := by
  unfold takeToken? at h
  split at h
  case h_11 =>
    obtain ⟨⟨p, r⟩, -, he⟩ := Option.map_eq_some_iff.1 h
    cases he
    intro n hn
    rw [Token.number.injEq] at hn
    exact NumberParts.isSigned_toNumber? hn
  case h_10 =>
    obtain ⟨⟨us, r⟩, -, he⟩ := Option.map_eq_some_iff.1 h
    cases he
    intro n hn
    cases hn
  all_goals
    cases h
    intro n hn
    cases hn

theorem isSigned_of_mem_tokens {cs : List Char} {t : Token} (h : t ∈ tokens cs) :
    t.IsSigned := by
  fun_induction tokens cs with
  | case1 => cases h
  | case2 c cs hs ih => exact ih h
  | case3 c cs hs ht =>
    rw [List.mem_singleton.1 h]
    intro n hn
    cases hn
  | case4 c cs hs t' rest ht ih =>
    rcases List.mem_cons.1 h with rfl | h
    · exact isSigned_of_takeToken? ht
    · exact ih h

theorem isSigned_of_ofString? {text : String} {j : Json} (h : ofString? text = some j) :
    ∀ t ∈ j.toTokens, t.IsSigned := by
  rw [← parse_eq_some_iff.1 h]
  exact fun t => isSigned_of_mem_tokens

/-! ## Parts of a tree -/

theorem mem_itemTokens {j : Json} {t : Token} (ht : t ∈ j.toTokens) :
    ∀ {items : List Json}, j ∈ items → t ∈ itemTokens items
  | [k], h => by
    obtain rfl := List.mem_singleton.1 h
    exact ht
  | k :: l :: items, h => by
    rw [itemTokens, List.mem_append, List.mem_cons]
    · rcases List.mem_cons.1 h with rfl | h
      · exact .inl ht
      · exact .inr (.inr (mem_itemTokens ht h))
    · simp

theorem depth_le_of_mem {m : Option String × Json} : ∀ {members : List (Option String × Json)},
    m ∈ members → m.2.depth ≤ depthOfMembers members
  | (k, j) :: members, h => by
    rw [depthOfMembers]
    rcases List.mem_cons.1 h with rfl | h
    · exact Nat.le_max_left _ _
    · exact Nat.le_trans (depth_le_of_mem h) (Nat.le_max_right _ _)

theorem depth_lt_depth_ofMembers {m : String × Json} {members : List (String × Json)}
    (h : m ∈ members) : m.2.depth < (ofMembers members).depth := by
  have hm : (some m.1, m.2) ∈ members.map fun m => (some m.1, m.2) := List.mem_map_of_mem h
  rw [ofMembers, depth]
  exact Nat.lt_succ_of_le (depth_le_of_mem hm)

theorem mem_memberTokens {m : Option String × Json} {t : Token} (ht : t ∈ m.2.toTokens) :
    ∀ {members : List (Option String × Json)}, m ∈ members → t ∈ memberTokens members
  | [(k, j)], h => by
    obtain rfl := List.mem_singleton.1 h
    rw [memberTokens]
    exact List.mem_cons_of_mem _ (List.mem_cons_of_mem _ ht)
  | (k, j) :: n :: members, h => by
    simp only [memberTokens, List.mem_cons, List.mem_append]
    rcases List.mem_cons.1 h with rfl | h
    · exact .inr (.inr (.inl ht))
    · exact .inr (.inr (.inr (.inr (mem_memberTokens ht h))))

end Json

namespace Value

/-! ## Values -/

mutual

/-- A value without floating-point numbers is written as the tree it was read from. -/
theorem toJson_of_ofJson? : ∀ {j : Json} {v : Value}, ofJson? j = some v → v.isFloatFree = true →
    (∀ t ∈ j.toTokens, t.IsSigned) → v.toJson = j
  | .number n, v, h, hf, hs => by
    obtain ⟨n, rfl, rfl⟩ := Option.map_eq_some_iff.1 h
    cases n with
    | natural n => rfl
    | negative n =>
      have hn : n.toInt < 0 := hs _ (List.mem_singleton_self _) _ rfl
      rw [ofNumber, toJson, Json.Number.ofInt64, if_neg (by omega)]
    | double x => cases hf
    | single x => cases hf
  | .text s, v, h, _, _ => by
    obtain ⟨s, rfl, rfl⟩ := Option.map_eq_some_iff.1 h
    rfl
  | .array items, v, h, hf, hs => by
    obtain ⟨vs, hv, rfl⟩ := Option.map_eq_some_iff.1 h
    rw [toJson, allToJson_of_allOfJson? hv hf fun j hj t ht => hs t ?_]
    rw [Json.toTokens, List.mem_append]
    exact .inl (List.mem_cons_of_mem _ (Json.mem_itemTokens ht hj))

theorem allToJson_of_allOfJson? : ∀ {js : List Json} {vs : List Value},
    allOfJson? js = some vs → areFloatFree vs = true →
      (∀ j ∈ js, ∀ t ∈ j.toTokens, t.IsSigned) → allToJson vs = js
  | [], vs, h, _, _ => by
    cases h
    rfl
  | j :: js, vs, h, hf, hs => by
    rw [allOfJson?] at h
    split at h
    · rename_i v vs hv hvs
      cases h
      rw [areFloatFree, Bool.and_eq_true] at hf
      rw [List.forall_mem_cons] at hs
      rw [allToJson, toJson_of_ofJson? hv hf.1 hs.1, allToJson_of_allOfJson? hvs hf.2 hs.2]
    · cases h

end

/-- It is plain already. -/
theorem plain_of_ofJson? {j : Json} {v : Value} (h : ofJson? j = some v)
    (hf : v.isFloatFree = true) (hs : ∀ t ∈ j.toTokens, t.IsSigned) : v.plain = v := by
  have ht := ofJson?_toJson v hf
  rw [toJson_of_ofJson? h hf hs, h, Option.some_inj] at ht
  exact ht.symm

mutual

theorem isFloatFree_plain : ∀ v : Value, v.plain.isFloatFree = v.isFloatFree
  | .unsigned _ | .double _ | .single _ | .text _ => rfl
  | .signed n => by
    rw [plain]
    split <;> rfl
  | .list items => areFloatFree_allPlain items

theorem areFloatFree_allPlain : ∀ vs : List Value, areFloatFree (allPlain vs) = areFloatFree vs
  | [] => rfl
  | v :: vs => by
    rw [allPlain, areFloatFree, areFloatFree, isFloatFree_plain v, areFloatFree_allPlain vs]

end

end Value

namespace Record

/-! ## Records -/

theorem exists_describes_of_mem {members : List (String × Json)} {es : List (String × Value)}
    {e : String × Value} (hs : List.Forall₂ Describes members es) (he : e ∈ es) :
    ∃ m ∈ members, Describes m e := by
  obtain ⟨i, hi, rfl⟩ := List.mem_iff_getElem.1 he
  have hm : i < members.length := hs.length_eq ▸ hi
  exact ⟨_, List.getElem_mem hm, hs.get hm hi⟩

/-- Every value of a record that was read comes from a tree of its text, which is nested less deep
than the text. -/
theorem exists_tree_of_read? {text : String} {r : Record} (h : read? text = some r) :
    ∀ e ∈ r.entries, ∃ j, Value.ofJson? j = some e.2 ∧ j.depth < Json.maxDepth ∧
      ∀ t ∈ j.toTokens, t.IsSigned := by
  intro e he
  obtain ⟨es, ⟨members, hj, hs⟩, rfl⟩ := read?_eq_some_iff.1 h
  obtain ⟨ht, hd⟩ := Option.filter_eq_some_iff.1 hj
  obtain ⟨m, hmem, -, hv⟩ := exists_describes_of_mem hs (NameMap.mem_of_mem_ofList he)
  rw [Bool.and_eq_true, decide_eq_true_iff] at hd
  refine ⟨m.2, hv, Nat.lt_of_lt_of_le (Json.depth_lt_depth_ofMembers hmem) hd.2, fun t htm =>
    Json.isSigned_of_ofString? ht t ?_⟩
  have hmem : (some m.1, m.2) ∈ members.map fun m => (some m.1, m.2) :=
    List.mem_map_of_mem hmem
  rw [Json.ofMembers, Json.toTokens, List.mem_append]
  exact .inl (List.mem_cons_of_mem _ (Json.mem_memberTokens htm hmem))

theorem read?_render_of_read? {text : String} {r : Record} (h : read? text = some r)
    (hf : ∀ e ∈ r.entries, e.2.isFloatFree = true) : read? (render r) = some r := by
  have hp : ∀ e ∈ r.entries, e.2.toJson.depth < Json.maxDepth ∧ e.2.plain = e.2 := by
    intro e he
    obtain ⟨j, hj, hd, hs⟩ := exists_tree_of_read? h e he
    rw [Value.toJson_of_ofJson? hj (hf e he) hs]
    exact ⟨hd, Value.plain_of_ofJson? hj (hf e he) hs⟩
  have hm : ∀ e ∈ r.entries, (e.1, e.2.plain) = id e := fun e he => Prod.ext rfl (hp e he).2
  have hr : r.map Value.plain = r :=
    NameMap.eq_of_entries ((List.map_congr_left hm).trans (List.map_id _))
  rw [read?_render hf fun e he => (hp e he).1, hr]

theorem depth_lt_of_depth_le {r : Record} (h : (toJson r).depth ≤ Json.maxDepth) :
    ∀ e ∈ r.entries, e.2.toJson.depth < Json.maxDepth := by
  intro e he
  have hm : (e.1, e.2.toJson) ∈ r.entries.map fun e => (e.1, e.2.toJson) := List.mem_map_of_mem he
  exact Nat.lt_of_lt_of_le (Json.depth_lt_depth_ofMembers hm) h

theorem read?_render_of_lt_depth {r : Record} (hf : ∀ e ∈ r.entries, e.2.isFloatFree = true)
    (hd : Json.maxDepth < (toJson r).depth) : read? (render r) = none := by
  have he : (toJson r).IsExact := Json.isExact_ofMembers <|
    List.forall_mem_map.2 fun e h => Value.isExact_toJson e.2 (hf e h)
  rw [read?, render, Json.ofStringStrict?, Json.ofString?, Json.tokens_render he,
    Json.parse_toTokens, Option.filter_some, decide_eq_false (Nat.not_le.2 hd), Bool.and_false]
  rfl

/-- A record without floating-point numbers is read back from its text if it is not nested too deep,
and only then: with the same names in the same order, and with its values in their plain form, which
is how they come back from now on. Any such record that was read from a text is read again from its
own text as it is. -/
theorem read?_render_settles :
    (∀ r : Record, (∀ e ∈ r.entries, e.2.isFloatFree = true) →
      ((toJson r).depth ≤ Json.maxDepth →
        ∃ back, read? (render r) = some back ∧ back.names = r.names ∧
          (∀ name, back.get? name = (r.get? name).map Value.plain) ∧
          read? (render back) = some back) ∧
      (Json.maxDepth < (toJson r).depth → read? (render r) = none)) ∧
    ∀ text once, read? text = some once → (∀ e ∈ once.entries, e.2.isFloatFree = true) →
      read? (render once) = some once := by
  refine ⟨fun r hf => ⟨fun hd => ?_, read?_render_of_lt_depth hf⟩,
    fun text once => read?_render_of_read?⟩
  have hr := read?_render hf (depth_lt_of_depth_le hd)
  refine ⟨_, hr, NameMap.names_map _ r, NameMap.get?_map _ r, read?_render_of_read? hr ?_⟩
  refine List.forall_mem_map.2 fun e he => ?_
  rw [Value.isFloatFree_plain]
  exact hf e he

/-- Integers at both ends of their range, inside and outside of a list, names and texts that must be
escaped, and a text that writes all this in another way. -/
theorem read?_render_settles_nested :
    (∃ back, read? (render (.ofList [("\"\n", .list [.signed 5, .list [.signed (-2 ^ 63)]]),
          ("\u00e9", .text "\\\u0001"), ("", .unsigned (2 ^ 64 - 1))])) = some back ∧
        back.get? "\"\n" = some (.list [.unsigned 5, .list [.signed (-2 ^ 63)]]) ∧
        read? (render back) = some back) ∧
      ∃ once, read? "\x7b \"a\" : [-1, [7]],\"b\":\"\\u00e9\",\"\\u0061\":[-2, [0]] \x7d"
          = some once ∧
        once.get? "a" = some (.list [.signed (-2), .list [.unsigned 0]]) ∧
        read? (render once) = some once := by
  obtain ⟨hw, hs⟩ := read?_render_settles
  constructor
  · have hf : ∀ e ∈ (NameMap.ofList [("\"\n", .list [.signed 5, .list [.signed (-2 ^ 63)]]),
        ("\u00e9", .text "\\\u0001"), ("", .unsigned (2 ^ 64 - 1))] : Record).entries,
          e.2.isFloatFree = true := by decide
    obtain ⟨back, hr, -, hg, hb⟩ := (hw _ hf).1 (by decide)
    have hfive : 0 ≤ (5 : Int64).toInt := by decide
    have hlow : ¬0 ≤ (-2 ^ 63 : Int64).toInt := by decide +kernel
    refine ⟨back, hr, ?_, hb⟩
    rw [hg]
    show some (Value.plain (.list [.signed 5, .list [.signed (-2 ^ 63)]])) = _
    simp only [Value.plain, Value.allPlain, if_pos hfive, if_neg hlow]
    rfl
  · have ht : IsObjectOf [("a", .list [.signed (-1), .list [.unsigned 7]]), ("b", .text "\u00e9"),
          ("a", .list [.signed (-2), .list [.unsigned 0]])]
        "\x7b \"a\" : [-1, [7]],\"b\":\"\\u00e9\",\"\\u0061\":[-2, [0]] \x7d" := by
      refine ⟨[("a", .array [.number (some (.negative (-1))),
          .array [.number (some (.natural 7))]]), ("b", .text (some "\u00e9")),
        ("a", .array [.number (some (.negative (-2))), .array [.number (some (.natural 0))]])],
        Json.ofStringStrict?_of_tokens (by decide +kernel) rfl (by decide), ?_⟩
      exact .cons ⟨rfl, rfl⟩ (.cons ⟨rfl, rfl⟩ (.cons ⟨rfl, rfl⟩ .nil))
    exact ⟨_, ht.read?, rfl, hs _ _ ht.read? (by decide)⟩

end Record

end BinaryLayout

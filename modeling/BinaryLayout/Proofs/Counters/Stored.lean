import BinaryLayout.Counters.Stored
import Mathlib.Data.List.Basic

/-!
# Stored counters delimit themselves

Reading a number never looks past its last byte (`takeWord?_append`), so a stored number that is
cut short cannot be read (`takeWord?_of_truncated`): what was taken from it would be taken from the
whole number too, which is taken to its end. The same holds of numbers one behind the other
(`takeWords?_of_truncated`). Hence counters are read back whatever follows them, and from no shorter
front of their bytes (`ofBytes_toBytes_delimits`).
-/

namespace BinaryLayout

namespace Counters

/-- Bytes that are appended stay behind what is taken. -/
theorem takeWord?_append {bytes rest : Bytes} {n : Nat} (h : takeWord? bytes = some (n, rest))
    (more : Bytes) : takeWord? (bytes ++ more) = some (n, rest ++ more) := by
  rcases bytes with _ | ⟨b, bs⟩
  · simp [takeWord?] at h
  rw [takeWord?] at h
  rw [List.cons_append, takeWord?]
  split_ifs at h ⊢ with hb
  · simp only [Option.some.injEq, Prod.mk.injEq] at h ⊢
    exact ⟨h.1, by rw [h.2]⟩
  · rcases hw : markedWidth? b with _ | width <;> rw [hw] at h
    · simp at h
    rw [Option.bind_some] at h ⊢
    split_ifs at h with hl
    simp only [Option.some.injEq, Prod.mk.injEq] at h
    have hle : width ≤ bs.length := Nat.not_lt.1 hl
    rw [if_neg (by rw [List.length_append]; omega), List.take_append_of_le_length hle,
      List.drop_append_of_le_length hle, h.1, h.2]

theorem takeWord?_of_truncated {n : Nat} (hn : n < 2 ^ 64) {bytes more : Bytes}
    (h : storedWord n = bytes ++ more) (hm : more ≠ []) : takeWord? bytes = none := by
  rcases ht : takeWord? bytes with _ | ⟨m, rest⟩
  · rfl
  have hw := takeWord?_append ht more
  have hs := takeWord?_storedWord hn []
  rw [List.append_nil, h, hw] at hs
  simp only [Option.some.injEq, Prod.mk.injEq, List.append_eq_nil_iff] at hs
  exact absurd hs.2.2 hm

theorem takeWords?_storedWords (rest : Bytes) : ∀ {ns : List Nat}, (∀ n ∈ ns, n < 2 ^ 64) →
    takeWords? ns.length (ns.flatMap storedWord ++ rest) = some ns
  | [], _ => rfl
  | n :: ns, h => by
    rw [List.forall_mem_cons] at h
    rw [List.length_cons, takeWords?, List.flatMap_cons, List.append_assoc,
      takeWord?_storedWord h.1, Option.bind_some]
    simp [takeWords?_storedWords rest h.2]

/-- The cut is in the first number or behind it. -/
theorem takeWords?_of_truncated : ∀ {ns : List Nat} {bytes more : Bytes}, (∀ n ∈ ns, n < 2 ^ 64) →
    ns.flatMap storedWord = bytes ++ more → more ≠ [] → takeWords? ns.length bytes = none
  | [], bytes, more, _, h, hm => by
    simp only [List.flatMap_nil, List.nil_eq_append_iff] at h
    exact absurd h.2 hm
  | n :: ns, bytes, more, hn, h, hm => by
    rw [List.forall_mem_cons] at hn
    rw [List.flatMap_cons, List.append_eq_append_iff] at h
    rw [List.length_cons, takeWords?]
    rcases h with ⟨front, rfl, h⟩ | ⟨back, h, rfl⟩
    · rw [takeWord?_storedWord hn.1, Option.bind_some]
      simp [takeWords?_of_truncated hn.2 h hm]
    · rcases back with _ | ⟨b, back⟩
      · -- the cut is right behind the first number
        have ht := takeWord?_storedWord hn.1 []
        rw [h, List.append_nil, List.append_nil] at ht
        rw [ht, Option.bind_some]
        simp [takeWords?_of_truncated hn.2 (List.nil_append _).symm hm]
      · rw [takeWord?_of_truncated hn.1 h (List.cons_ne_nil _ _)]
        rfl

theorem ofBytes_toBytes_append {c : Counters} (h : ∀ n ∈ c.toList, n < 2 ^ 64) (rest : Bytes) :
    ofBytes (c.toBytes ++ rest) = .ok c := by
  have ht : takeWords? 9 (c.toBytes ++ rest) = some c.toList := takeWords?_storedWords rest h
  rw [ofBytes, ht]
  rfl

theorem ofBytes_of_truncated {c : Counters} (h : ∀ n ∈ c.toList, n < 2 ^ 64) {bytes more : Bytes}
    (hb : c.toBytes = bytes ++ more) (hm : more ≠ []) :
    ofBytes bytes = .error (.telemetry none) := by
  have ht : takeWords? 9 bytes = none := takeWords?_of_truncated h hb hm
  rw [ofBytes, ht]
  rfl

/-- Counters of 64 bits are read back from their bytes, whatever follows these, and from no shorter
front of them. No bytes of counters start with the bytes of other counters. -/
theorem ofBytes_toBytes_delimits {c : Counters} (h : ∀ n ∈ c.toList, n < 2 ^ 64) :
    (∀ rest, ofBytes (c.toBytes ++ rest) = .ok c) ∧
      (∀ bytes, bytes <+: c.toBytes → bytes ≠ c.toBytes →
        ofBytes bytes = .error (.telemetry none)) ∧
      ∀ d : Counters, (∀ n ∈ d.toList, n < 2 ^ 64) → d.toBytes <+: c.toBytes → d = c := by
  refine ⟨ofBytes_toBytes_append h, ?_, ?_⟩
  · rintro bytes ⟨more, hb⟩ hne
    refine ofBytes_of_truncated h hb.symm ?_
    rintro rfl
    exact hne (by simpa using hb)
  · rintro d hd ⟨more, hb⟩
    have hc := ofBytes_toBytes_append h []
    rw [List.append_nil, ← hb, ofBytes_toBytes_append hd] at hc
    exact Except.ok.inj hc

/-- The least and the greatest number of each length, cut inside the last of them. -/
theorem ofBytes_toBytes_delimits_bounds :
    (∀ n ∈ (⟨0, 250, 251, 2 ^ 16 - 1, 2 ^ 16, 2 ^ 32 - 1, 252, 2 ^ 32, 2 ^ 64 - 1⟩ :
        Counters).toList, n < 2 ^ 64) ∧
      (toBytes ⟨0, 250, 251, 2 ^ 16 - 1, 2 ^ 16, 2 ^ 32 - 1, 252, 2 ^ 32, 2 ^ 64 - 1⟩).length
        = 39 ∧
      ofBytes (toBytes ⟨0, 250, 251, 2 ^ 16 - 1, 2 ^ 16, 2 ^ 32 - 1, 252, 2 ^ 32, 2 ^ 64 - 1⟩
          ++ [251, 7])
        = .ok ⟨0, 250, 251, 2 ^ 16 - 1, 2 ^ 16, 2 ^ 32 - 1, 252, 2 ^ 32, 2 ^ 64 - 1⟩ ∧
      ofBytes ((toBytes ⟨0, 250, 251, 2 ^ 16 - 1, 2 ^ 16, 2 ^ 32 - 1, 252, 2 ^ 32,
          2 ^ 64 - 1⟩).take 38)
        = .error (.telemetry none) := by
  have h : ∀ n ∈ (⟨0, 250, 251, 2 ^ 16 - 1, 2 ^ 16, 2 ^ 32 - 1, 252, 2 ^ 32, 2 ^ 64 - 1⟩ :
      Counters).toList, n < 2 ^ 64 := by decide
  obtain ⟨hr, ht, -⟩ := ofBytes_toBytes_delimits h
  exact ⟨h, by decide, hr [251, 7], ht _ (List.take_prefix 38 _) (by decide)⟩

end Counters

end BinaryLayout

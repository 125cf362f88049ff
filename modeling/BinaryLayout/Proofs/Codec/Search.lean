import BinaryLayout.Codec.GuardedSearch

/-!
# The first occurrence

A search goes from place to place, so what it finds is the first place at or after the offset where
the pattern stands (`find?_eq_some_iff`), and it finds nothing only if there is none
(`find?_eq_none_iff`). A pattern without bytes occurs nowhere.
-/

namespace BinaryLayout

namespace Bytes

/-- A pattern stands in a buffer from a place on. -/
def OccursAt (needle buf : Bytes) (place : Nat) : Prop :=
  place + needle.length ≤ buf.length ∧ window buf place needle.length = needle

theorem occursAt_iff {needle buf : Bytes} (hn : needle ≠ []) {place : Nat} :
    OccursAt needle buf place ↔ needle <+: buf.drop place := by
  unfold OccursAt window
  rw [List.prefix_iff_eq_take]
  constructor
  · rintro ⟨-, h⟩
    exact h.symm
  · intro h
    have hl := congrArg List.length h
    have hp := List.length_pos_iff.2 hn
    rw [List.length_take, List.length_drop] at hl
    exact ⟨by omega, h.symm⟩

theorem firstIn_eq_some_iff {needle : Bytes} : ∀ {bs : Bytes} {start i : Nat},
    firstIn needle bs start = some i ↔
      ∃ k < bs.length, start + k = i ∧ needle <+: bs.drop k ∧ ∀ j < k, ¬needle <+: bs.drop j
  | [], start, i => by simp [firstIn]
  | b :: bs, start, i => by
    unfold firstIn
    split
    · rename_i hp
      rw [List.isPrefixOf_iff_prefix] at hp
      constructor
      · rintro ⟨⟩
        exact ⟨0, by simp, rfl, hp, fun j hj => by omega⟩
      · rintro ⟨k, -, rfl, -, hm⟩
        rcases Nat.eq_zero_or_pos k with rfl | hk
        · rfl
        · exact absurd hp (hm 0 hk)
    · rename_i hp
      rw [List.isPrefixOf_iff_prefix] at hp
      rw [firstIn_eq_some_iff, List.length_cons]
      constructor
      · rintro ⟨k, hk, rfl, hs, hm⟩
        refine ⟨k + 1, by omega, by omega, hs, fun j hj => ?_⟩
        cases j with
        | zero => exact hp
        | succ j => exact hm j (by omega)
      · rintro ⟨k, hk, rfl, hs, hm⟩
        cases k with
        | zero => exact absurd hs hp
        | succ k => exact ⟨k, by omega, by omega, hs, fun j hj => hm (j + 1) (by omega)⟩

theorem firstIn_eq_none_iff {needle : Bytes} : ∀ {bs : Bytes} {start : Nat},
    firstIn needle bs start = none ↔ ∀ k < bs.length, ¬needle <+: bs.drop k
  | [], start => by simp [firstIn]
  | b :: bs, start => by
    unfold firstIn
    split
    · rename_i hp
      rw [List.isPrefixOf_iff_prefix] at hp
      simp only [reduceCtorEq, false_iff]
      exact fun h => h 0 (by simp) hp
    · rename_i hp
      rw [List.isPrefixOf_iff_prefix] at hp
      rw [firstIn_eq_none_iff, List.length_cons]
      constructor
      · intro h k hk
        cases k with
        | zero => exact hp
        | succ k => exact h k (by omega)
      · intro h k hk
        exact h (k + 1) (by omega)

theorem find?_of_ne_nil {needle : Bytes} (hn : needle ≠ []) (buf : Bytes) (offset : Nat) :
    find? buf needle offset = firstIn needle (buf.drop offset) offset := by
  rw [find?, if_neg (by simpa using hn)]

theorem find?_eq_some_iff {buf needle : Bytes} {offset i : Nat} :
    find? buf needle offset = some i ↔
      needle ≠ [] ∧ offset ≤ i ∧ OccursAt needle buf i ∧
        ∀ j, offset ≤ j → j < i → ¬OccursAt needle buf j := by
  by_cases hn : needle = []
  · simp [find?, hn]
  · simp only [find?_of_ne_nil hn, firstIn_eq_some_iff, occursAt_iff hn, List.drop_drop,
      List.length_drop]
    constructor
    · rintro ⟨k, hk, rfl, hs, hm⟩
      refine ⟨hn, by omega, hs, fun j ho hj => ?_⟩
      have := hm (j - offset) (by omega)
      rwa [Nat.add_sub_cancel' ho] at this
    · rintro ⟨-, ho, hs, hm⟩
      -- a pattern with a byte does not stand behind the end of the buffer
      have hl := ((occursAt_iff hn).2 hs).1
      have hp := List.length_pos_iff.2 hn
      refine ⟨i - offset, by omega, by omega, ?_, fun j hj => hm _ (by omega) (by omega)⟩
      rwa [Nat.add_sub_cancel' ho]

/-- A search that starts where the pattern stands goes no further. -/
theorem find?_of_occursAt {buf needle : Bytes} {place : Nat} (hn : needle ≠ [])
    (h : OccursAt needle buf place) : find? buf needle place = some place :=
  find?_eq_some_iff.2 ⟨hn, Nat.le_refl place, h, fun _ hp hj => absurd hp (Nat.not_le.2 hj)⟩

theorem find?_eq_none_iff {buf needle : Bytes} {offset : Nat} :
    find? buf needle offset = none ↔
      needle = [] ∨ ∀ j, offset ≤ j → ¬OccursAt needle buf j := by
  by_cases hn : needle = []
  · simp [find?, hn]
  · simp only [find?_of_ne_nil hn, firstIn_eq_none_iff, hn, false_or, List.drop_drop,
      List.length_drop]
    constructor
    · intro h j ho hj
      have hp := List.length_pos_iff.2 hn
      have := hj.1
      refine h (j - offset) (by omega) ?_
      rw [Nat.add_sub_cancel' ho]
      exact (occursAt_iff hn).1 hj
    · intro h k _ hs
      exact h (offset + k) (by omega) ((occursAt_iff hn).2 hs)

/-- A search gives an answer at every offset. It is the first place from there on where the pattern
stands, and there is none exactly if the pattern has no byte or stands nowhere from there on. -/
theorem seek?_finds_first {buf : Bytes} (hb : buf.length < 2 ^ 64) (needle : Bytes)
    (offset : Nat) :
    ∃ found, seek? buf needle offset = some found ∧ find? buf needle offset = found ∧
      (∀ i, found = some i ↔
        needle ≠ [] ∧ offset ≤ i ∧ i + needle.length ≤ buf.length ∧
          window buf i needle.length = needle ∧
          ∀ j, offset ≤ j → j < i → ¬OccursAt needle buf j) ∧
      (found = none ↔ needle = [] ∨ ∀ j, offset ≤ j → ¬OccursAt needle buf j) := by
  refine ⟨_, seek?_eq hb needle offset, rfl, fun i => ?_, find?_eq_none_iff⟩
  rw [find?_eq_some_iff, OccursAt, and_assoc]

/-- A pattern that overlaps itself is found where it ends with the buffer, and nowhere behind. -/
theorem seek?_finds_first_overlapping :
    seek? [1, 2, 1, 2, 1] [1, 2, 1] 1 = some (some 2) ∧
      window [1, 2, 1, 2, 1] 2 3 = [1, 2, 1] ∧ ¬OccursAt [1, 2, 1] [1, 2, 1, 2, 1] 1 ∧
      seek? [1, 2, 1, 2, 1] [1, 2, 1] (2 ^ 64 - 1) = some none ∧
      ∀ j, 2 ^ 64 - 1 ≤ j → ¬OccursAt [1, 2, 1] [1, 2, 1, 2, 1] j := by
  have hb : ([1, 2, 1, 2, 1] : Bytes).length < 2 ^ 64 := by decide
  obtain ⟨found, hs, hf, hi, -⟩ := seek?_finds_first hb [1, 2, 1] 1
  obtain ⟨far, ht, hg, -, hn⟩ := seek?_finds_first hb [1, 2, 1] (2 ^ 64 - 1)
  have hf : found = some 2 := hf.symm.trans rfl
  have hg : far = none := hg.symm.trans (by decide)
  obtain ⟨-, -, -, hw, hm⟩ := (hi 2).1 hf
  refine ⟨hf ▸ hs, hw, hm 1 (by decide) (by decide), hg ▸ ht, ?_⟩
  exact (hn.1 hg).resolve_left (by decide)

end Bytes

end BinaryLayout

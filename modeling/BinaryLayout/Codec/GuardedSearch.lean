import BinaryLayout.Codec.Guarded
import BinaryLayout.Codec.Search

/-!
# Guarded search

The search again, from place to place up to the last one where the pattern has room. A place is
ruled out by its first byte before the whole pattern is compared. Every difference, sum, index and
slice is tested where it is used, and where a test fails there is no result.

Main statement: `Bytes.seek?_eq`, every test passes, for all buffers that a machine can hold.
-/

namespace BinaryLayout

/-- A difference that is not negative. -/
def Word.sub? (m n : Nat) : Option Nat := if n ≤ m then some (m - n) else none

namespace Bytes

/-- Whether a pattern that begins with `first` stands at a place. -/
def standsAt? (buf needle : Bytes) (first : UInt8) (place : Nat) : Option Bool := do
  if (← buf[place]?) = first then
    return (← slice? buf place (← Word.add? place needle.length)) == needle
  else return false

/-- The first of `count` places from `start` on that passes a test. -/
def firstOf? (test : Nat → Option Bool) : Nat → Nat → Option (Option Nat)
  | _, 0 => some none
  | start, count + 1 => do
    if ← test start then return some start else firstOf? test (start + 1) count

/-- Searching; the places are those from `offset` to the last one with room for the pattern. -/
def seek? (buf : Bytes) : Bytes → Nat → Option (Option Nat)
  | [], _ => some none
  | first :: rest, offset => do
    let needle := first :: rest
    if buf.length ≤ offset then return none
    if (← Word.sub? buf.length offset) < needle.length then return none
    let last ← Word.sub? buf.length needle.length
    firstOf? (standsAt? buf needle first) offset (last + 1 - offset)

theorem firstIn_of_length_lt {needle : Bytes} : ∀ {bs : Bytes} (start : Nat),
    bs.length < needle.length → firstIn needle bs start = none
  | [], _, _ => rfl
  | b :: bs, start, h => by
    have hp : needle.isPrefixOf (b :: bs) = false := by
      refine Bool.eq_false_iff.2 fun hp => ?_
      have := (List.isPrefixOf_iff_prefix.1 hp).length_le
      omega
    rw [List.length_cons] at h
    simp only [firstIn, hp, Bool.false_eq_true, if_false]
    exact firstIn_of_length_lt (start + 1) (by omega)

theorem standsAt?_eq {buf rest : Bytes} {first : UInt8} {place : Nat} (hb : buf.length < 2 ^ 64)
    (h : place + (first :: rest).length ≤ buf.length) :
    standsAt? buf (first :: rest) first place
      = some ((first :: rest).isPrefixOf (buf.drop place)) := by
  have hlt : place < buf.length := by
    rw [List.length_cons] at h
    omega
  have hd := List.drop_eq_getElem_cons hlt
  rw [standsAt?, List.getElem?_eq_getElem hlt]
  simp only [Option.bind_eq_bind, Option.bind_some]
  by_cases hf : buf[place] = first
  · rw [if_pos hf, Word.add?, if_pos (by omega), Option.bind_some, Codec.slice?_eq h,
      Option.bind_some]
    congr 1
    rw [Bool.eq_iff_iff, beq_iff_eq, List.isPrefixOf_iff_prefix, List.prefix_iff_eq_take]
    exact eq_comm
  · rw [if_neg hf, hd]
    simp [List.isPrefixOf, Ne.symm hf]

theorem firstOf?_eq {buf rest : Bytes} {first : UInt8} (hb : buf.length < 2 ^ 64) :
    ∀ {count start : Nat}, start + count + (first :: rest).length = buf.length + 1 →
      firstOf? (standsAt? buf (first :: rest) first) start count
        = some (firstIn (first :: rest) (buf.drop start) start)
  | 0, start, h => by
    have hl : (buf.drop start).length < (first :: rest).length := by
      rw [List.length_drop, List.length_cons] at *
      omega
    rw [firstOf?, firstIn_of_length_lt start hl]
  | count + 1, start, h => by
    have hlt : start < buf.length := by
      rw [List.length_cons] at h
      omega
    have hle : start + (first :: rest).length ≤ buf.length := by omega
    have hs : start + 1 + count + (first :: rest).length = buf.length + 1 := by omega
    rw [firstOf?, standsAt?_eq hb hle, firstOf?_eq hb hs, List.drop_eq_getElem_cons hlt, firstIn]
    simp only [Option.bind_eq_bind, Option.bind_some]
    split <;> rfl

/-- Searching uses nothing outside its domain. -/
theorem seek?_eq {buf : Bytes} (hb : buf.length < 2 ^ 64) (needle : Bytes) (offset : Nat) :
    seek? buf needle offset = some (find? buf needle offset) := by
  cases needle with
  | nil => rfl
  | cons first rest =>
    rw [seek?, find?, List.isEmpty_cons, if_neg Bool.false_ne_true]
    by_cases ho : buf.length ≤ offset
    · rw [if_pos ho, List.drop_eq_nil_of_le ho]
      rfl
    · rw [if_neg ho, Word.sub?, if_pos (by omega)]
      simp only [Option.bind_eq_bind, Option.bind_some]
      by_cases hr : buf.length - offset < (first :: rest).length
      · rw [if_pos hr, firstIn_of_length_lt]
        · rfl
        · rwa [List.length_drop]
      · rw [if_neg hr, Word.sub?, if_pos (by omega), Option.bind_some]
        exact firstOf?_eq hb (by omega)

end Bytes

end BinaryLayout

import BinaryLayout.Byte.Word

/-!
# Windows of a buffer

Overwriting piece behind piece is overwriting with the pieces joined (`overwrite_append`), and it
changes the bytes of its window only (`getElem?_overwrite_of_mem`, `getElem?_overwrite_of_not_mem`).
A byte string of equal pieces is cut into exactly these (`chunks_flatMap`).
-/

namespace BinaryLayout

namespace Bytes

theorem window_add (buf : Bytes) (start m n : Nat) :
    window buf start (m + n) = window buf start m ++ window buf (start + m) n := by
  simp only [window, List.take_add, List.drop_drop]

theorem getElem?_window (buf : Bytes) (start : Nat) {width i : Nat} (h : i < width) :
    (window buf start width)[i]? = buf[start + i]? := by
  simp only [window, List.getElem?_take, if_pos h, List.getElem?_drop]

theorem window_window (buf : Bytes) (start : Nat) {i m n : Nat} (h : i + n ≤ m) :
    window (window buf start m) i n = window buf (start + i) n := by
  rw [window, window, window, List.drop_take, List.take_take, List.drop_drop,
    Nat.min_eq_left (by omega)]

theorem window_all {buf : Bytes} {width : Nat} (h : buf.length = width) :
    window buf 0 width = buf := by
  rw [window, List.drop_zero, ← h, List.take_length]

/-! ## Overwriting -/

theorem overwrite_nil (buf : Bytes) (start : Nat) : overwrite buf start [] = buf := by
  simp [overwrite]

theorem overwrite_all {buf bytes : Bytes} (h : bytes.length = buf.length) :
    overwrite buf 0 bytes = bytes := by
  simp [overwrite, h]

/-- Two pieces written one behind the other are written as one. -/
theorem overwrite_append {buf front : Bytes} {start : Nat}
    (h : start + front.length ≤ buf.length) (back : Bytes) :
    overwrite (overwrite buf start front) (start + front.length) back
      = overwrite buf start (front ++ back) := by
  have hl : (buf.take start ++ front).length = start + front.length := by
    simp only [List.length_append, List.length_take]
    omega
  simp only [overwrite]
  rw [List.take_left' hl, ← List.drop_drop, List.drop_left' hl]
  simp only [List.append_assoc, List.length_append, List.drop_drop, Nat.add_assoc]

/-- A piece stands where it was written, whatever was written in front of it and behind. -/
theorem window_overwrite_append {buf front : Bytes} {start : Nat} (piece back : Bytes)
    (h : start + (front ++ (piece ++ back)).length ≤ buf.length) :
    window (overwrite buf start (front ++ (piece ++ back))) (start + front.length) piece.length
      = piece := by
  have hw := window_overwrite h
  have hl := length_overwrite h
  rw [List.length_append, List.length_append] at h
  rw [List.length_append, List.length_append, window_add, window_add] at hw
  obtain ⟨-, hr⟩ := List.append_inj hw (length_window (by omega))
  exact (List.append_inj hr (length_window (by omega))).1

theorem getElem?_overwrite_of_mem {buf bytes : Bytes} {start i : Nat}
    (h : start + bytes.length ≤ buf.length) (hs : start ≤ i) (hi : i < start + bytes.length) :
    (overwrite buf start bytes)[i]? = bytes[i - start]? := by
  have hl : (buf.take start).length = start := by
    rw [List.length_take]
    omega
  rw [overwrite, List.append_assoc, List.getElem?_append_right (by omega), hl,
    List.getElem?_append_left (by omega)]

theorem getElem?_overwrite_of_not_mem {buf bytes : Bytes} {start i : Nat}
    (h : bytes = [] ∨ start + bytes.length ≤ buf.length)
    (hi : i < start ∨ start + bytes.length ≤ i) :
    (overwrite buf start bytes)[i]? = buf[i]? := by
  rcases h with rfl | h
  · rw [overwrite_nil]
  · have hl : (buf.take start).length = start := by
      rw [List.length_take]
      omega
    rcases hi with hi | hi
    · rw [overwrite, List.append_assoc, List.getElem?_append_left (by omega),
        List.getElem?_take, if_pos hi]
    · rw [overwrite, List.append_assoc, List.getElem?_append_right (by omega), hl,
        List.getElem?_append_right (by omega), List.getElem?_drop]
      congr 1
      omega

/-- `out` is `buf` with the bytes from `start` up to `stop` replaced by the first ones of
`whole`. -/
structure Placed (whole buf : Bytes) (start stop : Nat) (out : Bytes) : Prop where
  start_le : start ≤ stop
  stop_le : stop ≤ start + whole.length
  window_eq : window out start (stop - start) = whole.take (stop - start)
  length_eq : out.length = buf.length
  getElem?_eq : ∀ i, i < start ∨ stop ≤ i → out[i]? = buf[i]?

theorem placed_overwrite {whole buf : Bytes} {start width : Nat} (hw : width ≤ whole.length)
    (h : width = 0 ∨ start + width ≤ buf.length) :
    Placed whole buf start (start + width) (overwrite buf start (whole.take width)) := by
  have hl : (whole.take width).length = width := by
    rw [List.length_take]
    omega
  rcases h with rfl | h
  · rw [List.take_zero, overwrite_nil]
    -- the start may lie behind the buffer then, and nothing is known of the window there
    refine ⟨Nat.le_refl _, Nat.le_add_right _ _, ?_, rfl, fun i _ => rfl⟩
    simp [window]
  · have hb : start + (whole.take width).length ≤ buf.length := by rwa [hl]
    refine ⟨Nat.le_add_right _ _, by omega, ?_, length_overwrite hb, fun i hi => ?_⟩
    · have hwin := window_overwrite hb
      rw [hl] at hwin
      rwa [Nat.add_sub_cancel_left]
    · exact getElem?_overwrite_of_not_mem (.inr hb) (by rwa [hl])

/-! ## Pieces of equal length -/

theorem length_of_mem_chunks {width : Nat} : ∀ {count : Nat} {bytes piece : Bytes},
    bytes.length = width * count → piece ∈ chunks width count bytes → piece.length = width
  | 0, _, _, _, h => by simp [chunks] at h
  | count + 1, bytes, piece, hb, h => by
    rw [Nat.mul_succ] at hb
    simp only [chunks, List.mem_cons] at h
    rcases h with rfl | h
    · rw [List.length_take]
      omega
    · refine length_of_mem_chunks ?_ h
      rw [List.length_drop]
      omega

theorem length_chunks (width count : Nat) (bytes : Bytes) :
    (chunks width count bytes).length = count := by
  induction count generalizing bytes with
  | zero => rfl
  | succ count ih => rw [chunks, List.length_cons, ih]

theorem flatten_chunks {width : Nat} : ∀ {count : Nat} {bytes : Bytes},
    bytes.length = width * count → (chunks width count bytes).flatten = bytes
  | 0, bytes, h => by
    rw [Nat.mul_zero] at h
    simp [chunks, List.length_eq_zero_iff.1 h]
  | count + 1, bytes, h => by
    rw [Nat.mul_succ] at h
    have hd : (bytes.drop width).length = width * count := by
      rw [List.length_drop]
      omega
    rw [chunks, List.flatten_cons, flatten_chunks hd, List.take_append_drop]

theorem getElem?_chunks (width : Nat) : ∀ {count i : Nat} (bytes : Bytes), i < count →
    (chunks width count bytes)[i]? = some (window bytes (i * width) width)
  | count + 1, 0, bytes, _ => by
    rw [Nat.zero_mul]
    rfl
  | count + 1, i + 1, bytes, h => by
    rw [chunks, List.getElem?_cons_succ, getElem?_chunks width _ (Nat.lt_of_succ_lt_succ h), window,
      window, List.drop_drop, Nat.succ_mul, Nat.add_comm]

theorem chunks_flatMap {α : Type u} {width : Nat} {piece : α → Bytes} : ∀ (items : List α),
    (∀ item ∈ items, (piece item).length = width) →
      chunks width items.length (items.flatMap piece) = items.map piece
  | [], _ => rfl
  | item :: items, h => by
    have hw := h item List.mem_cons_self
    have ih := chunks_flatMap items fun i hi => h i (List.mem_cons_of_mem _ hi)
    rw [List.length_cons, chunks, List.flatMap_cons, List.take_left' hw, List.drop_left' hw, ih,
      List.map_cons]

end Bytes

end BinaryLayout

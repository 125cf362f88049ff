import BinaryLayout.Codec.Guarded
import BinaryLayout.Proofs.Byte.Splice
import BinaryLayout.Proofs.Codec.Scalar
import BinaryLayout.Proofs.Text.Latin

/-!
# One field through its bytes

A field takes values of one shape, `Fits`, which is what the check accepts (`check_eq_ok_iff`). A
value of that shape covers the field's bytes completely, so what is written is its `image`,
whatever stood there before (`write_eq_image`). What was read fits and is written back unchanged
(`image_read`); what was written without a conversion is read in its normal form (`read_image`).
-/

namespace BinaryLayout

namespace Descriptor

variable {d : Descriptor}

/-- The values a field takes: text for characters, a number for a single value, else a list of as
many numbers. -/
inductive Fits (d : Descriptor) : Value → Prop
  | text (s : String) : d.tag.isChar = true → Fits d (.text s)
  | number {v : Value} : d.tag.isChar = false → d.isRepeated = false → v.isNumeric = true →
    Fits d v
  | list {items : List Value} : d.tag.isChar = false → d.isRepeated = true →
    items.length = d.count.toNat → (∀ item ∈ items, item.isNumeric = true) → Fits d (.list items)

/-- The bytes stored for a value that fits. -/
def image (d : Descriptor) (order : ByteOrder) : Value → Bytes
  | .text s => Text.padded d.count.toNat (Text.lowBytes s)
  | .list items => items.flatMap (Scalar.write d.tag order d.tag.width)
  | v => Scalar.write d.tag order d.tag.width v

/-- What a field makes of a value it stores without a conversion. -/
def norm (d : Descriptor) : Value → Value
  | .text s => .text (Text.fitted d.count.toNat s)
  | .list items => .list (items.map (Scalar.norm d.tag))
  | v => Scalar.norm d.tag v

/-- The numbers in a value are of a kind its field stores without a conversion. -/
def IsNative (d : Descriptor) : Value → Prop
  | .text _ => True
  | .list items => ∀ item ∈ items, Scalar.IsNative d.tag item
  | v => Scalar.IsNative d.tag v

/-- Text of exactly the field's length in characters of one byte, or numbers the field keeps. -/
def IsNormal (d : Descriptor) : Value → Prop
  | .text s => s.toList.length = d.count.toNat ∧ ∀ c ∈ s.toList, c.toNat < 256
  | .list items => ∀ item ∈ items, Scalar.IsNormal d.tag item
  | v => Scalar.IsNormal d.tag v

/-! ## The check -/

theorem check_of_isChar {name : String} {v : Value} (ht : d.tag.isChar = true) :
    d.check name v = .ok () ↔ ∃ s, v = .text s := by
  unfold check
  rw [if_pos ht]
  cases v <;> simp

theorem check_of_single {name : String} {v : Value} (ht : d.tag.isChar = false)
    (hr : d.isRepeated = false) : d.check name v = .ok () ↔ v.isNumeric = true := by
  unfold check
  rw [if_neg (by simp [ht]), if_pos (by simp [hr])]
  split <;> simp [*]

theorem check_of_isRepeated {name : String} {v : Value} (ht : d.tag.isChar = false)
    (hr : d.isRepeated = true) : d.check name v = .ok () ↔ ∃ items, v = .list items ∧
      items.length = d.count.toNat ∧ ∀ item ∈ items, item.isNumeric = true := by
  unfold check
  rw [if_neg (by simp [ht]), if_neg (by simp [hr])]
  cases v with
  | list items =>
    simp only [Value.list.injEq, exists_eq_left']
    by_cases hl : items.length = d.count.toNat
    · rw [if_neg (not_not_intro hl)]
      cases hf : items.find? (!·.isNumeric) with
      | none => simpa [hl] using hf
      | some bad =>
        have hb : bad.isNumeric = false := by simpa using List.find?_some hf
        simp only [reduceCtorEq, false_iff, not_and]
        intro _ hv
        rw [hv bad (List.mem_of_find?_eq_some hf)] at hb
        cases hb
    · simp [hl]
  | _ => simp

theorem check_eq_ok_iff {name : String} {v : Value} :
    d.check name v = .ok () ↔ d.Fits v := by
  constructor
  · intro h
    rcases ht : d.tag.isChar with _ | _
    · rcases hr : d.isRepeated with _ | _
      · exact .number ht hr ((check_of_single ht hr).1 h)
      · obtain ⟨items, rfl, hl, hv⟩ := (check_of_isRepeated ht hr).1 h
        exact .list ht hr hl hv
    · obtain ⟨s, rfl⟩ := (check_of_isChar ht).1 h
      exact .text s ht
  · intro h
    cases h with
    | text s ht => exact (check_of_isChar ht).2 ⟨s, rfl⟩
    | number ht hr hv => exact (check_of_single ht hr).2 hv
    | list ht hr hl hv => exact (check_of_isRepeated ht hr).2 ⟨_, rfl, hl, hv⟩

theorem byteLength_of_isChar (h : d.tag.isChar = true) : d.byteLength = d.count.toNat := by
  have ht : d.tag = .char := by simpa [Tag.isChar] using h
  rw [byteLength, ht, Tag.width, Nat.one_mul]

theorem byteLength_of_single (hc : d.count ≠ 0) (hr : d.isRepeated = false) :
    d.byteLength = d.tag.width := by
  rw [byteLength, count_eq_one hc hr, Nat.mul_one]

/-! ## The bytes of a value -/

theorem image_of_isNumeric {v : Value} (order : ByteOrder) (h : v.isNumeric = true) :
    d.image order v = Scalar.write d.tag order d.tag.width v := by
  cases v <;> first | rfl | simp [Value.isNumeric] at h

theorem write_of_isNumeric {v : Value} (order : ByteOrder) (window : Bytes)
    (ht : d.tag.isChar = false) (h : v.isNumeric = true) :
    d.write order v window = Scalar.write d.tag order window.length v := by
  unfold write
  rw [if_neg (by simp [ht])]
  cases v <;> first | rfl | simp [Value.isNumeric] at h

theorem writeItems_eq {tag : Tag} (order : ByteOrder) : ∀ {items : List Value} {window : Bytes},
    window.length = tag.width * items.length →
      writeItems tag order items window = items.flatMap (Scalar.write tag order tag.width)
  | [], window, h => by
    rw [List.length_nil, Nat.mul_zero] at h
    rw [writeItems, List.length_eq_zero_iff.1 h, List.flatMap_nil]
  | v :: vs, window, h => by
    rw [List.length_cons, Nat.mul_succ] at h
    have hd : (window.drop tag.width).length = tag.width * vs.length := by
      rw [List.length_drop]
      omega
    rw [writeItems, if_neg (by omega), writeItems_eq order hd, List.flatMap_cons]

/-- A value that fits covers its field: what stood there before does not matter. -/
theorem write_eq_image (order : ByteOrder) {v : Value} (hc : d.count ≠ 0) (hf : d.Fits v)
    {window : Bytes} (hw : window.length = d.byteLength) :
    d.write order v window = d.image order v := by
  cases hf with
  | text s ht =>
    rw [byteLength_of_isChar ht] at hw
    simp only [write, if_pos ht, hw, Value.text?, Option.getD_some, image]
  | number ht hr hv =>
    rw [byteLength_of_single hc hr] at hw
    rw [write_of_isNumeric order window ht hv, image_of_isNumeric order hv, hw]
  | list ht hr hl hv =>
    rw [byteLength, ← hl] at hw
    rw [write, if_neg (by simp [ht]), image]
    exact writeItems_eq order hw

theorem length_image (order : ByteOrder) {v : Value} (hc : d.count ≠ 0) (hf : d.Fits v) :
    (d.image order v).length = d.byteLength := by
  have hw : (List.replicate d.byteLength (0 : UInt8)).length = d.byteLength :=
    List.length_replicate
  rw [← write_eq_image order hc hf hw, length_write, hw]

/-! ## Writing what was read -/

theorem isNumeric_read {tag : Tag} (h : tag.isChar = false) (order : ByteOrder) (bytes : Bytes) :
    (Scalar.read tag order bytes).isNumeric = true := by
  cases tag <;> first | rfl | simp [Tag.isChar] at h

theorem read_of_isChar (order : ByteOrder) (bytes : Bytes) (h : d.tag.isChar = true) :
    d.read order bytes = .text (Text.ofBytes bytes) := by
  rw [read, if_pos h]

theorem read_of_single (order : ByteOrder) (bytes : Bytes) (ht : d.tag.isChar = false)
    (hr : d.isRepeated = false) : d.read order bytes = Scalar.read d.tag order bytes := by
  simp [read, ht, hr]

theorem read_of_isRepeated (order : ByteOrder) (bytes : Bytes) (ht : d.tag.isChar = false)
    (hr : d.isRepeated = true) : d.read order bytes
      = .list ((Bytes.chunks d.tag.width d.count.toNat bytes).map (Scalar.read d.tag order)) := by
  simp [read, ht, hr]

theorem fits_read (d : Descriptor) (order : ByteOrder) (bytes : Bytes) :
    d.Fits (d.read order bytes) := by
  rcases ht : d.tag.isChar with _ | _
  · rcases hr : d.isRepeated with _ | _
    · rw [read_of_single order bytes ht hr]
      exact .number ht hr (isNumeric_read ht order bytes)
    · rw [read_of_isRepeated order bytes ht hr]
      refine .list ht hr (by rw [List.length_map, Bytes.length_chunks]) fun item hm => ?_
      obtain ⟨piece, -, rfl⟩ := List.mem_map.1 hm
      exact isNumeric_read ht order piece
  · rw [read_of_isChar order bytes ht]
    exact .text _ ht

theorem image_read (order : ByteOrder) {bytes : Bytes} (hc : d.count ≠ 0)
    (h : bytes.length = d.byteLength) : d.image order (d.read order bytes) = bytes := by
  rcases ht : d.tag.isChar with _ | _
  · rcases hr : d.isRepeated with _ | _
    · rw [byteLength_of_single hc hr] at h
      rw [read_of_single order bytes ht hr,
        image_of_isNumeric order (isNumeric_read ht order bytes), Scalar.write_read ht order h]
    · rw [byteLength] at h
      have hp : ∀ piece ∈ Bytes.chunks d.tag.width d.count.toNat bytes,
          Scalar.write d.tag order d.tag.width (Scalar.read d.tag order piece) = id piece :=
        fun piece hm => Scalar.write_read ht order (Bytes.length_of_mem_chunks h hm)
      rw [read_of_isRepeated order bytes ht hr, image, List.flatMap_map, List.flatMap_def,
        List.map_congr_left hp, List.map_id, Bytes.flatten_chunks h]
  · rw [byteLength_of_isChar ht] at h
    rw [read_of_isChar order bytes ht, image, Text.lowBytes_ofBytes, ← h, Text.padded_length]

/-! ## Reading what was written -/

/-- Numbers that are written one behind the other are taken apart again. -/
theorem chunks_flatMap_write (tag : Tag) (order : ByteOrder) (items : List Value) :
    Bytes.chunks tag.width items.length (items.flatMap (Scalar.write tag order tag.width))
      = items.map (Scalar.write tag order tag.width) :=
  Bytes.chunks_flatMap items fun item _ => Scalar.length_write tag order tag.width item

theorem read_image (order : ByteOrder) {v : Value} (hf : d.Fits v) (hn : d.IsNative v) :
    d.read order (d.image order v) = d.norm v := by
  cases hf with
  | text s ht => rw [read_of_isChar order _ ht, image, Text.ofBytes_padded, norm]
  | number ht hr hv =>
    rw [read_of_single order _ ht hr, image_of_isNumeric order hv]
    cases v <;> first | exact Scalar.read_write order hn | simp [Value.isNumeric] at hv
  | list ht hr hl hv =>
    rename_i items
    have hi : ∀ item ∈ items, (Scalar.read d.tag order ∘ Scalar.write d.tag order d.tag.width) item
        = Scalar.norm d.tag item := fun item hm => Scalar.read_write order (hn item hm)
    rw [read_of_isRepeated order _ ht hr, image, ← hl, chunks_flatMap_write, List.map_map,
      List.map_congr_left hi, norm]

theorem IsNormal.isNative {v : Value} (h : d.IsNormal v) : d.IsNative v := by
  cases v with
  | text s => trivial
  | list items => exact fun item hm => (h item hm).isNative
  | unsigned n => exact Scalar.IsNormal.isNative (v := .unsigned n) h
  | signed n => exact Scalar.IsNormal.isNative (v := .signed n) h
  | double x => exact Scalar.IsNormal.isNative (v := .double x) h
  | single x => exact Scalar.IsNormal.isNative (v := .single x) h

theorem norm_eq_self {v : Value} (h : d.IsNormal v) : d.norm v = v := by
  cases v with
  | text s => rw [norm, Text.fitted_eq_self h.1 h.2]
  | list items =>
    have hi : ∀ item ∈ items, Scalar.norm d.tag item = id item :=
      fun item hm => Scalar.norm_eq_self (h item hm)
    rw [norm, List.map_congr_left hi, List.map_id]
  | unsigned n => exact Scalar.norm_eq_self (v := .unsigned n) h
  | signed n => exact Scalar.norm_eq_self (v := .signed n) h
  | double x => exact Scalar.norm_eq_self (v := .double x) h
  | single x => exact Scalar.norm_eq_self (v := .single x) h

end Descriptor

end BinaryLayout

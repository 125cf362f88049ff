import BinaryLayout.Proofs.Codec.Encoding
import Mathlib.Data.List.Palindrome

/-!
# Layouts in the opposite byte order

An element is read from reversed bytes in the opposite order as from its bytes in its own
(`Scalar.read_reverse`), so turning the bytes of every element of a buffer round, `mirrored`, and
the orders of all fields with them, `flipped`, leaves what is decoded as it is
(`readEntries_mirror`), and what is encoded is turned round (`mirror_image`). The order of an
element makes no difference exactly where its bytes read the same both ways.
-/

namespace BinaryLayout

namespace Bytes

theorem length_flatMap_reverse (pieces : List Bytes) :
    (pieces.flatMap List.reverse).length = pieces.flatten.length := by
  have h : List.length ∘ List.reverse = (List.length : Bytes → Nat) :=
    funext fun _ => List.length_reverse
  rw [List.flatMap_def, List.length_flatten, List.length_flatten, List.map_map, h]

/-- Turning every piece round does not move the pieces. -/
theorem chunks_flatMap_reverse {width count : Nat} {bytes : Bytes}
    (h : bytes.length = width * count) :
    chunks width count ((chunks width count bytes).flatMap List.reverse)
      = (chunks width count bytes).map List.reverse := by
  have hp : ∀ piece ∈ chunks width count bytes, piece.reverse.length = width := by
    intro piece hm
    rw [List.length_reverse, length_of_mem_chunks h hm]
  have hc := chunks_flatMap _ hp
  rwa [length_chunks] at hc

end Bytes

namespace Scalar

theorem read_reverse {tag : Tag} (ht : tag.isChar = false) (order : ByteOrder) (bytes : Bytes) :
    read tag order.opposite bytes.reverse = read tag order bytes := by
  have ha : order.opposite.arrange bytes.reverse = order.arrange bytes := by
    rw [ByteOrder.arrange_opposite, List.reverse_reverse]
  have hu : Bytes.readUInt order.opposite bytes.reverse = Bytes.readUInt order bytes := by
    rw [Bytes.readUInt, ha, Bytes.readUInt]
  have hs : Bytes.readInt order.opposite bytes.reverse = Bytes.readInt order bytes := by
    rw [Bytes.readInt, ha, List.length_reverse, Bytes.readInt]
  cases hk : tag.kind with
  | char => exact absurd hk (Tag.kind_of_isChar ht)
  | unsigned => simp only [read, hk, hu]
  | signed => simp only [read, hk, hs]
  | float => simp only [read, hk, hu]

theorem write_opposite (tag : Tag) (order : ByteOrder) (width : Nat) (v : Value) :
    write tag order.opposite width v = (write tag order width v).reverse := by
  rw [write, write, Bytes.writeUInt, Bytes.writeUInt]
  cases order <;> simp [ByteOrder.opposite, ByteOrder.arrange]

/-- Both orders give the same value just for bytes that read the same both ways: a value
determines the bytes it was read from. -/
theorem read_little_eq_read_big_iff {tag : Tag} {bytes : Bytes} (h : bytes.length = tag.width) :
    read tag .little bytes = read tag .big bytes ↔ bytes.Palindrome := by
  rw [List.Palindrome.iff_reverse_eq]
  rcases ht : tag.isChar with _ | _
  · constructor
    · intro he
      have hl := write_read ht .little h
      have hb := write_read ht .big h
      rw [← he] at hb
      calc bytes.reverse
          = (write tag .little tag.width (read tag .little bytes)).reverse := by rw [hl]
        _ = write tag .big tag.width (read tag .little bytes) :=
            (write_opposite tag .little tag.width _).symm
        _ = bytes := hb
    · intro hr
      have he := read_reverse ht .little bytes
      rwa [hr, eq_comm] at he
  -- a character is one byte, which both orders read alike
  · obtain rfl : tag = .char := by simpa [Tag.isChar] using ht
    obtain ⟨b, rfl⟩ := List.length_eq_one_iff.1 h
    simp [read, Tag.kind]

end Scalar

namespace Descriptor

variable {d : Descriptor}

/-- With the byte order that it does not resolve to, made explicit. -/
def flipped (d : Descriptor) (default : ByteOrder) : Descriptor :=
  d.withOrder (d.resolvedOrder default).opposite

/-- The bytes of a field with those of every element reversed; characters stay. -/
def mirror (d : Descriptor) (bytes : Bytes) : Bytes :=
  if d.tag.isChar then bytes
  else (Bytes.chunks d.tag.width d.count.toNat bytes).flatMap List.reverse

theorem mirror_of_isChar (h : d.tag.isChar = true) (bytes : Bytes) : d.mirror bytes = bytes :=
  if_pos h

theorem mirror_of_not_isChar (h : d.tag.isChar = false) (bytes : Bytes) :
    d.mirror bytes = (Bytes.chunks d.tag.width d.count.toNat bytes).flatMap List.reverse := by
  simp [mirror, h]

theorem mirror_of_single (hc : d.count ≠ 0) (ht : d.tag.isChar = false)
    (hr : d.isRepeated = false) {bytes : Bytes} (h : bytes.length = d.byteLength) :
    d.mirror bytes = bytes.reverse := by
  rw [byteLength_of_single hc hr] at h
  rw [mirror_of_not_isChar ht, count_eq_one hc hr]
  simp [Bytes.chunks, ← h]

theorem length_mirror {bytes : Bytes} (h : bytes.length = d.byteLength) :
    (d.mirror bytes).length = d.byteLength := by
  rcases ht : d.tag.isChar with _ | _
  · rw [mirror_of_not_isChar ht, Bytes.length_flatMap_reverse, Bytes.flatten_chunks h, h]
  · rw [mirror_of_isChar ht, h]

theorem read_mirror (order : ByteOrder) {bytes : Bytes} (hc : d.count ≠ 0)
    (h : bytes.length = d.byteLength) :
    d.read order.opposite (d.mirror bytes) = d.read order bytes := by
  rcases ht : d.tag.isChar with _ | _
  · rcases hr : d.isRepeated with _ | _
    · rw [read_of_single _ _ ht hr, read_of_single _ _ ht hr, mirror_of_single hc ht hr h,
        Scalar.read_reverse ht]
    · have he : Scalar.read d.tag order.opposite ∘ List.reverse = Scalar.read d.tag order :=
        funext (Scalar.read_reverse ht order)
      rw [read_of_isRepeated _ _ ht hr, read_of_isRepeated _ _ ht hr, mirror_of_not_isChar ht,
        Bytes.chunks_flatMap_reverse h, List.map_map, he]
  · rw [read_of_isChar _ _ ht, read_of_isChar _ _ ht, mirror_of_isChar ht]

theorem mirror_image (order : ByteOrder) {v : Value} (hc : d.count ≠ 0) (hf : d.Fits v) :
    d.mirror (d.image order v) = d.image order.opposite v := by
  have hl := length_image order hc hf
  cases hf with
  | text s ht => rw [mirror_of_isChar ht, image, image]
  | number ht hr hv =>
    rw [mirror_of_single hc ht hr hl, image_of_isNumeric _ hv, image_of_isNumeric _ hv,
      Scalar.write_opposite]
  | list ht hr hn hv =>
    have ho : Scalar.write d.tag order.opposite d.tag.width
        = fun item => (Scalar.write d.tag order d.tag.width item).reverse :=
      funext (Scalar.write_opposite d.tag order d.tag.width)
    rw [mirror_of_not_isChar ht, image, ← hn, chunks_flatMap_write, image, List.flatMap_map, ho]

end Descriptor

namespace Field

/-- With the byte order that its descriptor does not resolve to. -/
def flipped (field : Field) (default : ByteOrder) : Field :=
  { field with descriptor := field.descriptor.flipped default }

/-- Turns round every element of fields that stand at the front; what follows them stays. -/
def mirror : List Field → Bytes → Bytes
  | [], bytes => bytes
  | field :: fields, bytes =>
    field.descriptor.mirror (bytes.take field.byteLength)
      ++ mirror fields (bytes.drop field.byteLength)

@[simp] theorem byteLength_flipped (field : Field) (default : ByteOrder) :
    (field.flipped default).byteLength = field.byteLength := rfl

theorem extent_map_flipped (default : ByteOrder) : ∀ fields : List Field,
    extent (fields.map (·.flipped default)) = extent fields
  | [] => rfl
  | field :: fields => by
    rw [List.map_cons, extent_cons, extent_cons, extent_map_flipped default fields,
      byteLength_flipped]

theorem fitting_map_flipped (default : ByteOrder) (length : Nat) : ∀ (fields : List Field)
    (cursor : Nat), fitting length (fields.map (·.flipped default)) cursor
      = fitting length fields cursor
  | [], _ => rfl
  | field :: fields, cursor => by
    simp only [List.map_cons, fitting, byteLength_flipped,
      fitting_map_flipped default length fields]

theorem mirror_append : ∀ {fields : List Field} {bytes : Bytes}, bytes.length = extent fields →
    ∀ rest : Bytes, mirror fields (bytes ++ rest) = mirror fields bytes ++ rest
  | [], _, _, _ => rfl
  | field :: fields, bytes, h, rest => by
    rw [extent_cons] at h
    have hd : (bytes.drop field.byteLength).length = extent fields := by
      rw [List.length_drop]
      omega
    rw [mirror, mirror, List.take_append_of_le_length (by omega),
      List.drop_append_of_le_length (by omega), mirror_append hd, List.append_assoc]

theorem length_mirror : ∀ {fields : List Field} {bytes : Bytes}, extent fields ≤ bytes.length →
    (mirror fields bytes).length = bytes.length
  | [], _, _ => rfl
  | field :: fields, bytes, h => by
    rw [extent_cons] at h
    have ht : (bytes.take field.byteLength).length = field.byteLength :=
      List.length_take_of_le (by omega)
    have hd : extent fields ≤ (bytes.drop field.byteLength).length := by
      rw [List.length_drop]
      omega
    have hm : (field.descriptor.mirror (bytes.take field.byteLength)).length = field.byteLength :=
      Descriptor.length_mirror ht
    rw [mirror, List.length_append, hm, length_mirror hd, List.length_drop]
    omega

end Field

namespace Definition

/-- With the order of every field made explicit, opposite to the one it resolves to. -/
def flipped (definition : Definition) (default : ByteOrder) : Definition where
  fields := definition.fields.map (·.flipped default)
  count_ne_zero field h := by
    obtain ⟨f, hm, rfl⟩ := List.mem_map.1 h
    exact definition.count_ne_zero f hm

theorem take_fields_flipped (definition : Definition) (default : ByteOrder) (k : Nat) :
    (definition.flipped default).fields.take k
      = (definition.fields.take k).map (·.flipped default) :=
  List.map_take.symm

theorem fitting_flipped (definition : Definition) (default : ByteOrder) (length cursor : Nat) :
    Field.fitting length (definition.flipped default).fields cursor
      = Field.fitting length definition.fields cursor :=
  Field.fitting_map_flipped default length definition.fields cursor

theorem position_flipped (definition : Definition) (default : ByteOrder) (offset index : Nat) :
    (definition.flipped default).position offset index = definition.position offset index := by
  rw [position, take_fields_flipped, Field.extent_map_flipped, position]

theorem size_flipped (definition : Definition) (default : ByteOrder) :
    (definition.flipped default).size = definition.size :=
  List.length_map _

/-- A buffer with every element turned round of the fields that end inside it. -/
def mirrored (definition : Definition) (buf : Bytes) (offset : Nat) : Bytes :=
  buf.take offset ++ Field.mirror
    (definition.fields.take (Field.fitting buf.length definition.fields offset)) (buf.drop offset)

theorem extent_fitting_le_drop (definition : Definition) (buf : Bytes) (offset : Nat) :
    Field.extent (definition.fields.take (Field.fitting buf.length definition.fields offset))
      ≤ (buf.drop offset).length := by
  rw [List.length_drop]
  rcases Field.extent_fitting_le buf.length definition.fields offset with h0 | hle
  · simp [h0]
  · omega

@[simp] theorem length_mirrored (definition : Definition) (buf : Bytes) (offset : Nat) :
    (definition.mirrored buf offset).length = buf.length := by
  rw [mirrored, List.length_append,
    Field.length_mirror (definition.extent_fitting_le_drop buf offset), ← List.length_append,
    List.take_append_drop]

theorem drop_mirrored (definition : Definition) (buf : Bytes) (offset : Nat) :
    (definition.mirrored buf offset).drop offset = Field.mirror
      (definition.fields.take (Field.fitting buf.length definition.fields offset))
      (buf.drop offset) := by
  rcases Field.extent_fitting_le buf.length definition.fields offset with h0 | hle
  · rw [mirrored, h0, List.take_zero, Field.mirror, List.take_append_drop]
  · have ht : (buf.take offset).length = offset := List.length_take_of_le (by omega)
    rw [mirrored, List.drop_left' ht]

end Definition

namespace Codec

variable (codec other : Codec)

/-- Behind a cursor at which everything is turned round the same values are read. -/
theorem readEntries_mirror {buf turned : Bytes} : ∀ {fields : List Field} {cursor : Nat},
    (∀ field ∈ fields, field.descriptor.count ≠ 0) →
      Field.extent fields ≤ (buf.drop cursor).length →
        turned.drop cursor = Field.mirror fields (buf.drop cursor) →
          other.readEntries turned (fields.map (·.flipped codec.defaultOrder)) cursor
            = codec.readEntries buf fields cursor
  | [], _, _, _, _ => rfl
  | field :: fields, cursor, hc, hl, h => by
    simp only [List.forall_mem_cons] at hc
    rw [Field.extent_cons] at hl
    have hw : (Bytes.window buf cursor field.byteLength).length = field.descriptor.byteLength :=
      List.length_take_of_le (by omega)
    have hm := Descriptor.length_mirror hw
    rw [Field.mirror] at h
    have hv : other.valueAt turned (field.flipped codec.defaultOrder) cursor
        = codec.valueAt buf field cursor := by
      have ht : Bytes.window turned cursor field.byteLength
          = field.descriptor.mirror (Bytes.window buf cursor field.byteLength) := by
        rw [Bytes.window, h]
        exact List.take_left' hm
      have hr := Descriptor.read_mirror (codec.orderOf field.descriptor) hc.1 hw
      rw [← ht] at hr
      exact hr
    have hd : turned.drop (cursor + field.byteLength)
        = Field.mirror fields (buf.drop (cursor + field.byteLength)) := by
      rw [← List.drop_drop, h, ← List.drop_drop]
      exact List.drop_left' hm
    have hl' : Field.extent fields ≤ (buf.drop (cursor + field.byteLength)).length := by
      rw [← List.drop_drop, List.length_drop]
      omega
    rw [List.map_cons, readEntries, hv, Field.byteLength_flipped, readEntries_mirror hc.2 hl' hd,
      readEntries]
    rfl

/-- What a record is stored as in the opposite orders. -/
theorem mirror_image {record : Record} : ∀ {fields : List Field},
    (∀ field ∈ fields, field.descriptor.count ≠ 0) → (∀ field ∈ fields, field.FitsIn record) →
      Field.mirror fields (codec.image record fields)
        = other.image record (fields.map (·.flipped codec.defaultOrder))
  | [], _, _ => rfl
  | field :: fields, hc, hf => by
    simp only [List.forall_mem_cons] at hc hf
    have hl := codec.length_fieldBytes hc.1 hf.1
    have hb : field.descriptor.mirror (codec.fieldBytes record field)
        = other.fieldBytes record (field.flipped codec.defaultOrder) :=
      Descriptor.mirror_image _ hc.1 hf.1.fits
    rw [image_cons, Field.mirror, List.take_left' hl, List.drop_left' hl, hb,
      mirror_image hc.2 hf.2, List.map_cons, image_cons]

theorem decode_mirrored (buf : Bytes) (definition : Definition) (offset : Nat) :
    other.decode (definition.mirrored buf offset) (definition.flipped codec.defaultOrder) offset
      = codec.decode buf definition offset := by
  have hc : ∀ field ∈ definition.fields.take
      (Field.fitting buf.length definition.fields offset), field.descriptor.count ≠ 0 :=
    fun field hm => definition.count_ne_zero field (List.mem_of_mem_take hm)
  have hr := codec.readEntries_mirror other hc (definition.extent_fitting_le_drop buf offset)
    (definition.drop_mirrored buf offset)
  rw [decode_eq, decode_eq, Definition.length_mirrored, Definition.fitting_flipped,
    Definition.take_fields_flipped, hr, Definition.position_flipped, Definition.size_flipped]

theorem accepts_flipped {definition : Definition} {record : Record} {default : ByteOrder}
    (h : definition.Accepts record) : (definition.flipped default).Accepts record := by
  rw [accepts_iff] at h ⊢
  intro field hm
  obtain ⟨f, hf, rfl⟩ := List.mem_map.1 hm
  obtain ⟨value, hg, hv⟩ := h f hf
  refine ⟨value, hg, ?_⟩
  cases hv with
  | text s ht => exact .text s ht
  | number ht hr hn => exact .number ht hr hn
  | list ht hr hn hv => exact .list ht hr hn hv

theorem mirror_overwrite {record : Record} {fields : List Field}
    (hc : ∀ field ∈ fields, field.descriptor.count ≠ 0) (hf : ∀ field ∈ fields, field.FitsIn record)
    {buf : Bytes} {offset : Nat} (hb : offset + Field.extent fields ≤ buf.length) :
    (Bytes.overwrite buf offset (codec.image record fields)).take offset
        ++ Field.mirror fields
            ((Bytes.overwrite buf offset (codec.image record fields)).drop offset)
      = Bytes.overwrite buf offset (other.image record (fields.map (·.flipped codec.defaultOrder)))
      := by
  have hi := codec.length_image hc hf
  have hm := codec.mirror_image other hc hf
  have hl : (other.image record (fields.map (·.flipped codec.defaultOrder))).length
      = (codec.image record fields).length := by
    rw [← hm, Field.length_mirror (Nat.le_of_eq hi.symm)]
  have ht : (buf.take offset).length = offset := List.length_take_of_le (by omega)
  rw [Bytes.overwrite, List.append_assoc, List.take_left' ht, List.drop_left' ht,
    Field.mirror_append hi, hm, Bytes.overwrite, hl, List.append_assoc]

theorem mirrored_overwrite {definition : Definition} {record : Record}
    (ha : definition.Accepts record) (buf : Bytes) (offset : Nat) :
    definition.mirrored (Bytes.overwrite buf offset (codec.image record
        (definition.fields.take (Field.fitting buf.length definition.fields offset)))) offset
      = Bytes.overwrite buf offset (other.image record
          ((definition.fields.take (Field.fitting buf.length definition.fields offset)).map
            (·.flipped codec.defaultOrder))) := by
  rcases Field.extent_fitting_le buf.length definition.fields offset with h0 | hle
  -- the offset may lie behind the buffer where nothing fits
  · simp [h0, image, Bytes.overwrite_nil, Definition.mirrored, Field.mirror]
  · have hc : ∀ field ∈ definition.fields.take
        (Field.fitting buf.length definition.fields offset), field.descriptor.count ≠ 0 :=
      fun field hm => definition.count_ne_zero field (List.mem_of_mem_take hm)
    have hf : ∀ field ∈ definition.fields.take
        (Field.fitting buf.length definition.fields offset), field.FitsIn record :=
      fun field hm => accepts_iff.1 ha field (List.mem_of_mem_take hm)
    have hl := codec.length_image hc hf
    rw [Definition.mirrored, Bytes.length_overwrite (by rwa [hl]),
      codec.mirror_overwrite other hc hf hle]

/-- A layout and a buffer turned round together, under any default order, decode as before, and an
accepted record is encoded as far as before into bytes that are turned round. A single element is
the same in both orders if and only if its bytes are a palindrome. -/
theorem flipped_mirrored (definition : Definition) (offset : Nat) :
    (∀ buf, other.decode (definition.mirrored buf offset) (definition.flipped codec.defaultOrder)
        offset = codec.decode buf definition offset) ∧
      (∀ buf record, definition.Accepts record → ∃ out p,
        codec.encodeInto buf definition record offset = (out, .ok p) ∧
          other.encodeInto buf (definition.flipped codec.defaultOrder) record offset
            = (definition.mirrored out offset, .ok p)) ∧
      ∀ (tag : Tag) (bytes : Bytes), bytes.length = tag.width →
        (Scalar.read tag .little bytes = Scalar.read tag .big bytes ↔ bytes.Palindrome) := by
  refine ⟨fun buf => codec.decode_mirrored other buf definition offset, fun buf record ha => ?_,
    fun tag bytes => Scalar.read_little_eq_read_big_iff⟩
  refine ⟨_, _, codec.encodeInto_eq ha buf offset, ?_⟩
  rw [other.encodeInto_eq (accepts_flipped ha), codec.mirrored_overwrite other ha,
    Definition.fitting_flipped, Definition.take_fields_flipped, Definition.position_flipped,
    Definition.size_flipped]

/-- A list of 24 bits behind text, orders of both kinds, and a last field that does not fit. -/
theorem flipped_mirrored_mixed :
    Definition.Accepts (.ofList [("t", ⟨.char, 2, none⟩), ("n", ⟨.int24, 2, some .big⟩),
        ("x", ⟨.uint16, 1, none⟩), ("z", ⟨.float64, 1, none⟩)])
      (.ofList [("t", .text "ab"), ("n", .list [.signed (-2), .unsigned 66051]),
        ("x", .unsigned 513), ("z", .double .zero)]) ∧
    (∃ r, Codec.decode ⟨.big⟩ [9, 97, 98, 254, 255, 255, 3, 2, 1, 2, 1, 9]
          (Definition.flipped (.ofList [("t", ⟨.char, 2, none⟩), ("n", ⟨.int24, 2, some .big⟩),
            ("x", ⟨.uint16, 1, none⟩), ("z", ⟨.float64, 1, none⟩)]) .little) 1 = r ∧
        Codec.decode ⟨.little⟩ [9, 97, 98, 255, 255, 254, 1, 2, 3, 1, 2, 9]
          (.ofList [("t", ⟨.char, 2, none⟩), ("n", ⟨.int24, 2, some .big⟩),
            ("x", ⟨.uint16, 1, none⟩), ("z", ⟨.float64, 1, none⟩)]) 1 = r ∧
        r.data.get? "n" = some (.list [.signed (-2), .signed 66051]) ∧
        r.data.get? "x" = some (.unsigned 513) ∧ r.stop = 11 ∧ r.incomplete = true) ∧
    (∃ out p,
      Codec.encodeInto ⟨.little⟩ [9, 9, 9, 9, 9, 9, 9, 9, 9, 9, 9, 9]
          (.ofList [("t", ⟨.char, 2, none⟩), ("n", ⟨.int24, 2, some .big⟩),
            ("x", ⟨.uint16, 1, none⟩), ("z", ⟨.float64, 1, none⟩)])
          (.ofList [("t", .text "ab"), ("n", .list [.signed (-2), .unsigned 66051]),
            ("x", .unsigned 513), ("z", .double .zero)]) 1 = (out, .ok p) ∧
        Codec.encodeInto ⟨.big⟩ [9, 9, 9, 9, 9, 9, 9, 9, 9, 9, 9, 9]
          (Definition.flipped (.ofList [("t", ⟨.char, 2, none⟩), ("n", ⟨.int24, 2, some .big⟩),
            ("x", ⟨.uint16, 1, none⟩), ("z", ⟨.float64, 1, none⟩)]) .little)
          (.ofList [("t", .text "ab"), ("n", .list [.signed (-2), .unsigned 66051]),
            ("x", .unsigned 513), ("z", .double .zero)]) 1
          = ([9, 97, 98, 254, 255, 255, 3, 2, 1, 2, 1, 9], .ok p)) ∧
    [5, 6, 5].length = Tag.int24.width ∧
    (Scalar.read .int24 .little [5, 6, 5] = Scalar.read .int24 .big [5, 6, 5] ↔
      List.Palindrome ([5, 6, 5] : Bytes)) := by
  have ha : Definition.Accepts (.ofList [("t", ⟨.char, 2, none⟩), ("n", ⟨.int24, 2, some .big⟩),
        ("x", ⟨.uint16, 1, none⟩), ("z", ⟨.float64, 1, none⟩)])
      (.ofList [("t", .text "ab"), ("n", .list [.signed (-2), .unsigned 66051]),
        ("x", .unsigned 513), ("z", .double .zero)]) := ⟨_, rfl⟩
  obtain ⟨hdec, henc, hpal⟩ := flipped_mirrored ⟨.little⟩ ⟨.big⟩ (.ofList [("t", ⟨.char, 2, none⟩),
    ("n", ⟨.int24, 2, some .big⟩), ("x", ⟨.uint16, 1, none⟩), ("z", ⟨.float64, 1, none⟩)]) 1
  obtain ⟨out, p, hs, ho⟩ := henc [9, 9, 9, 9, 9, 9, 9, 9, 9, 9, 9, 9] _ ha
  obtain rfl : [9, 97, 98, 255, 255, 254, 1, 2, 3, 1, 2, 9] = out := congrArg Prod.fst hs
  exact ⟨ha, ⟨_, hdec [9, 97, 98, 255, 255, 254, 1, 2, 3, 1, 2, 9], rfl, rfl, rfl, rfl, rfl⟩,
    ⟨_, p, hs, ho⟩, rfl, hpal .int24 [5, 6, 5] rfl⟩

end Codec

end BinaryLayout

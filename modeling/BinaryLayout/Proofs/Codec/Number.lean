import BinaryLayout.Proofs.Codec.Marker
import BinaryLayout.Proofs.Floating.Conversion

/-!
# Numbers in fields of another kind

A field takes numbers of every kind, alone or as items. What it stores of one (`Stores`) and what
it gives back (`Returns`) is the same in every layout, at every offset and in either byte order, and
depends on the tag and the number alone (`stores_word`, `returns_of_read_write`).

A field of integers stores a floating-point number as the whole part, toward zero, clamped and then
modulo its width (`stores_clamped`). A field of doubles stores an integer as the nearest double.
That is the integer itself if a significand has the bits for it, and then a field of integers gives
it back from the double (`integer_through_float64`).
-/

namespace BinaryLayout

namespace Descriptor

variable {d : Descriptor} {v item : Value}

/-- The numbers in the value of a field: the items of a list if it is repeated, else the value. -/
def numbers (d : Descriptor) (v : Value) : List Value :=
  if d.isRepeated then v.items?.getD [] else [v]

theorem Fits.isChar_eq_false (h : d.Fits v) (hm : item ∈ d.numbers v)
    (hi : item.isNumeric = true) : d.tag.isChar = false := by
  cases h with
  | text s ht =>
    rw [numbers] at hm
    split at hm
    · cases hm
    · rw [List.mem_singleton.1 hm] at hi
      cases hi
  | number ht _ _ => exact ht
  | list ht _ _ _ => exact ht

theorem Fits.length_numbers (h : d.Fits v) (ht : d.tag.isChar = false) (hc : d.count ≠ 0) :
    (d.numbers v).length = d.count.toNat := by
  cases h with
  | text s hs => rw [ht] at hs; cases hs
  | number _ hr _ => rw [numbers, if_neg (Bool.eq_false_iff.1 hr), count_eq_one hc hr]; rfl
  | list _ hr hl _ => rw [numbers, if_pos hr]; exact hl

/-- A field is written number by number. -/
theorem Fits.image_eq (h : d.Fits v) (ht : d.tag.isChar = false) (order : ByteOrder) :
    d.image order v = (d.numbers v).flatMap (Scalar.write d.tag order d.tag.width) := by
  cases h with
  | text s hs => rw [ht] at hs; cases hs
  | number _ hr hv =>
    rw [numbers, if_neg (Bool.eq_false_iff.1 hr), image_of_isNumeric order hv,
      List.flatMap_singleton]
  | list _ hr _ _ => rw [numbers, if_pos hr]; rfl

/-- A field is read number by number. -/
theorem numbers_read (order : ByteOrder) (ht : d.tag.isChar = false) (hc : d.count ≠ 0)
    {bytes : Bytes} (hb : bytes.length = d.byteLength) : d.numbers (d.read order bytes)
      = (Bytes.chunks d.tag.width d.count.toNat bytes).map (Scalar.read d.tag order) := by
  rcases hr : d.isRepeated with _ | _
  · rw [byteLength_of_single hc hr] at hb
    rw [numbers, if_neg (Bool.eq_false_iff.1 hr), read_of_single order bytes ht hr,
      count_eq_one hc hr, Bytes.chunks, List.take_of_length_le hb.le]
    rfl
  · rw [numbers, if_pos hr, read_of_isRepeated order bytes ht hr]
    rfl

end Descriptor

/-- A layout accepts a record, which gives the field with index `k` a value with `value` for its
number `i`; and the field ends within `length` bytes. -/
structure Definition.Gives (definition : Definition) (record : Record) (offset length k i : Nat)
    (field : Field) (value : Value) : Prop where
  accepts : definition.Accepts record
  fields_eq : definition.fields[k]? = some field
  numbers_eq : ∃ given, record.get? field.name = some given ∧
    (field.descriptor.numbers given)[i]? = some value
  position_le : definition.position offset (k + 1) ≤ length

namespace Definition.Gives

variable {definition : Definition} {record : Record} {offset length k i : Nat} {field : Field}
  {value : Value}

theorem lt_fitting (h : definition.Gives record offset length k i field value) :
    k < Field.fitting length definition.fields offset := by
  have hk := (List.getElem?_eq_some_iff.1 h.fields_eq).1
  refine (Field.isGreatest_fitting length definition.fields offset).2 ⟨hk, fun j _ hj => ?_⟩
  have ht := Field.extent_take_le (definition.fields.take (k + 1)) j
  rw [List.take_take, Nat.min_eq_left hj] at ht
  exact (Nat.add_le_add_left ht offset).trans h.position_le

theorem fitsIn (h : definition.Gives record offset length k i field value) :
    field.FitsIn record :=
  Codec.accepts_iff.1 h.accepts field (List.mem_of_getElem? h.fields_eq)

theorem count_ne_zero (h : definition.Gives record offset length k i field value) :
    field.descriptor.count ≠ 0 :=
  definition.count_ne_zero field (List.mem_of_getElem? h.fields_eq)

theorem getElem?_numbers (h : definition.Gives record offset length k i field value) :
    (field.descriptor.numbers (field.valueIn record))[i]? = some value := by
  obtain ⟨given, hg, hi⟩ := h.numbers_eq
  rwa [Field.valueIn, hg]

theorem isChar_eq_false (h : definition.Gives record offset length k i field value)
    (hv : value.isNumeric = true) : field.descriptor.tag.isChar = false :=
  h.fitsIn.fits.isChar_eq_false (List.mem_of_getElem? h.getElem?_numbers) hv

theorem lt_count (h : definition.Gives record offset length k i field value)
    (hv : value.isNumeric = true) : i < field.descriptor.count.toNat := by
  rw [← h.fitsIn.fits.length_numbers (h.isChar_eq_false hv) h.count_ne_zero]
  exact (List.getElem?_eq_some_iff.1 h.getElem?_numbers).1

end Definition.Gives

namespace Codec

variable (codec : Codec)

/-- Wherever a field with the tag is given the value, alone or among others, the number whose digits
the bytes in its place are afterwards, in the byte order of the field. -/
def Stores (tag : Tag) (value : Value) (n : Nat) : Prop :=
  ∀ (definition : Definition) (record : Record) (buf : Bytes) (offset k i : Nat) (field : Field),
    definition.Gives record offset buf.length k i field value → field.descriptor.tag = tag →
      ∃ out p bytes, codec.encodeInto buf definition record offset = (out, .ok p) ∧
        Bytes.slice? out (definition.position offset k + i * tag.width)
          (definition.position offset k + i * tag.width + tag.width) = some bytes ∧
        Bytes.value ((codec.orderOf field.descriptor).arrange bytes) = n

/-- Wherever a field with the tag is given the value, alone or among others, what decoding finds in
its place afterwards; unless a later field has the same name. -/
def Returns (tag : Tag) (value result : Value) : Prop :=
  ∀ (definition : Definition) (record : Record) (buf : Bytes) (offset k i : Nat) (field : Field),
    definition.Gives record offset buf.length k i field value → field.descriptor.tag = tag →
    (∀ j later, k < j → definition.fields[j]? = some later →
      definition.position offset (j + 1) ≤ buf.length → later.name ≠ field.name) →
      ∃ out p found, codec.encodeInto buf definition record offset = (out, .ok p) ∧
        (codec.decode out definition offset).data.get? field.name = some found ∧
        (field.descriptor.numbers found)[i]? = some result

theorem length_encodeInto {definition : Definition} {record : Record}
    (ha : definition.Accepts record) (buf : Bytes) (offset : Nat) :
    (codec.encodeInto buf definition record offset).1.length = buf.length := by
  have hl := codec.length_image_take definition.count_ne_zero (accepts_iff.1 ha)
    (Field.fitting buf.length definition.fields offset)
  rw [codec.encodeInto_eq ha]
  rcases Field.extent_fitting_le buf.length definition.fields offset with h0 | hle
  · rw [h0, List.take_zero]
    exact congrArg List.length (Bytes.overwrite_nil _ _)
  · exact Bytes.length_overwrite (by rwa [hl])

/-- The numbers of a field stand at its position, one behind the other. -/
theorem exists_chunks_of_gives {definition : Definition} {record : Record} {buf : Bytes}
    {offset k i : Nat} {field : Field} {value : Value}
    (h : definition.Gives record offset buf.length k i field value)
    (hv : value.isNumeric = true) :
    ∃ out p, codec.encodeInto buf definition record offset = (out, .ok p) ∧
      out.length = buf.length ∧
      Bytes.chunks field.descriptor.tag.width field.descriptor.count.toNat
          (Bytes.window out (definition.position offset k) field.byteLength)
        = (field.descriptor.numbers (field.valueIn record)).map (Scalar.write field.descriptor.tag
            (codec.orderOf field.descriptor) field.descriptor.tag.width) := by
  have ht := h.isChar_eq_false hv
  have hf := h.fitsIn.fits
  have he := codec.encodeInto_eq h.accepts buf offset
  have hl := codec.length_encodeInto h.accepts buf offset
  have hw := codec.window_encodeInto h.accepts h.fields_eq h.lt_fitting
  rw [he] at hl hw
  refine ⟨_, _, he, hl, ?_⟩
  rw [hw, fieldBytes, hf.image_eq ht, ← hf.length_numbers ht h.count_ne_zero]
  exact Descriptor.chunks_flatMap_write _ _ _

/-- The low bytes of the word of a number are stored. -/
theorem stores_word (tag : Tag) {value : Value} (hv : value.isNumeric = true) :
    codec.Stores tag value ((Scalar.word tag value).toNat % 2 ^ (8 * tag.width)) := by
  rintro definition record buf offset k i field h rfl
  obtain ⟨out, p, he, hl, hw⟩ := codec.exists_chunks_of_gives h hv
  have hi := h.lt_count hv
  have hb : i * field.descriptor.tag.width + field.descriptor.tag.width ≤ field.byteLength := by
    rw [← Nat.succ_mul, Nat.mul_comm]
    exact Nat.mul_le_mul_left _ hi
  have hp := h.position_le
  rw [Definition.position_succ h.fields_eq, ← hl] at hp
  -- the place of the number is the piece with its index
  have hwin : Bytes.window out (definition.position offset k + i * field.descriptor.tag.width)
      field.descriptor.tag.width
        = Scalar.write field.descriptor.tag (codec.orderOf field.descriptor)
            field.descriptor.tag.width value := by
    have hc := Bytes.getElem?_chunks field.descriptor.tag.width
      (Bytes.window out (definition.position offset k) field.byteLength) hi
    rw [hw, List.getElem?_map, h.getElem?_numbers, Option.map_some, Option.some.injEq,
      Bytes.window_window _ _ hb] at hc
    exact hc.symm
  refine ⟨out, p, _, he, slice?_eq (by omega), ?_⟩
  rw [hwin, Scalar.write, Bytes.arrange_writeUInt, Bytes.value_digits, pow_width]

theorem returns_of_read_write {tag : Tag} {value result : Value} (hv : value.isNumeric = true)
    (hr : ∀ order, Scalar.read tag order (Scalar.write tag order tag.width value) = result) :
    codec.Returns tag value result := by
  rintro definition record buf offset k i field h rfl hlast
  obtain ⟨out, p, he, hl, hw⟩ := codec.exists_chunks_of_gives h hv
  have hk := h.lt_fitting
  have hg := Field.isGreatest_fitting buf.length definition.fields offset
  have hp := h.position_le
  rw [Definition.position_succ h.fields_eq] at hp
  rw [← hl] at hk hg hp
  refine ⟨out, p, _, he, codec.get?_decode hk h.fields_eq fun j later hkj hj hf => ?_, ?_⟩
  · -- what a decoding walk comes past ends inside the buffer
    have hle := hg.1.2 (j + 1) (Nat.le_add_left 1 j) hj
    rw [hl] at hle
    exact hlast j later hkj hf hle
  · have hb : (Bytes.window out (definition.position offset k) field.byteLength).length
        = field.descriptor.byteLength := Bytes.length_window hp
    rw [valueAt, Descriptor.numbers_read _ (h.isChar_eq_false hv) h.count_ne_zero hb, hw,
      List.getElem?_map, List.getElem?_map, h.getElem?_numbers, Option.map_some, Option.map_some,
      hr]

end Codec

/-! ## Floating-point numbers in fields of integers -/

namespace Value

/-- What the bits of a floating-point number denote. -/
def datum? : Value → Option Datum
  | .double x => some (Format.binary64.datum x.bits)
  | .single x => some (Format.binary32.datum x.bits)
  | _ => none

theorem toNat_word_of_datum? {v : Value} {t : Datum} (h : v.datum? = some t) :
    v.word.toNat = t.word := by
  cases v with
  | double x =>
    rw [← Option.some.inj h]
    exact x.toNat_toWord (by decide) (by decide +kernel)
  | single x =>
    rw [← Option.some.inj h]
    exact x.toNat_toWord (by decide) (by decide +kernel)
  | _ => cases h

end Value

namespace Codec

end Codec

/-! ## Integers in fields of doubles -/

namespace Scalar

theorem isNormal_int64 (k : Int64) : IsNormal .int64 (.signed k) := ⟨rfl, k.le_toInt, k.toInt_lt⟩

theorem isNormal_uint64 (k : UInt64) : IsNormal .uint64 (.unsigned k) := ⟨rfl, k.toNat_lt⟩

end Scalar

namespace Value

theorem isNumeric_of_integer? {v : Value} {z : Int} (h : v.integer? = some z) :
    v.isNumeric = true := by
  cases v <;> first | rfl | cases h

theorem natAbs_lt_of_integer? {v : Value} {z : Int} (h : v.integer? = some z) :
    z.natAbs < 2 ^ 64 := by
  cases v with
  | unsigned n =>
    rw [← Option.some.inj h, Int.natAbs_natCast]
    exact n.toNat_lt
  | signed n =>
    have hl := n.le_toInt
    have hu := n.toInt_lt
    rw [← Option.some.inj h]
    omega
  | _ => cases h

theorem asDouble_of_integer? {v : Value} {z : Int} (h : v.integer? = some z) :
    v.asDouble = .ofInt z := by
  cases v with
  | unsigned n =>
    have hn : decide ((n.toNat : Int) < 0) = false := decide_eq_false (Int.natCast_nonneg _).not_gt
    rw [← Option.some.inj h, Floating.ofInt, hn, Int.natAbs_natCast]
    rfl
  | signed n =>
    rw [← Option.some.inj h]
    rfl
  | _ => cases h

end Value

namespace Codec

theorem round_lt_of_natAbs_lt {z : Int} (h : z.natAbs < 2 ^ 64) :
    Format.binary64.round z.natAbs 1 < Format.binary64.infinity := by
  have ht : Format.binary64.round (2 ^ 64) 1 < Format.binary64.infinity := by decide +kernel
  exact (Format.round_mono _ Nat.one_pos Nat.one_pos (Nat.mul_le_mul_right 1 h.le)).trans_lt ht

/-- Integers of up to 53 bits are doubles. -/
theorem datum_ofInt {z : Int} (h : |z| ≤ 2 ^ 53) :
    Format.binary64.datum (Floating.ofInt z : Double).bits = .number z := by
  obtain ⟨hl, hu⟩ := abs_le.1 h
  have hr : Format.binary64.round z.natAbs 1 < Format.binary64.infinity :=
    round_lt_of_natAbs_lt (by omega)
  refine (Floating.datum_eq_number_iff (by decide)).2 ⟨Floating.isFinite_ofRatio _ hr, ?_⟩
  exact Floating.toRat_ofInt hr (by
    show z.natAbs ≤ 2 ^ 53
    omega)

theorem word_double_ofInt {z : Int} (h : |z| ≤ 2 ^ 53) {w : Value} (hw : w.integer? = some z) :
    (Value.double (.ofInt z)).word = w.word := by
  obtain ⟨hl, hu⟩ := abs_le.1 h
  have ht := Value.toNat_word_of_datum? (v := .double (.ofInt z)) (congrArg some (datum_ofInt h))
  rw [Datum.word_intCast (by omega) (by omega)] at ht
  have hn := Value.toNat_word hw
  rw [← UInt64.toNat_inj, ht]
  omega

variable (codec : Codec)

/-- A field of floating-point numbers stores the bits of what a number is converted to. -/
theorem stores_bits {tag : Tag} {v : Value} (hv : v.isNumeric = true) {f : Format}
    (hf : f.width + 1 = 8 * tag.width) {x : Floating f}
    (hw : Scalar.word tag v = UInt64.ofNat x.bits) : codec.Stores tag v x.bits := by
  have hs := codec.stores_word tag hv
  have hb := x.bits_lt
  have hp := Nat.pow_le_pow_right (by decide : 0 < 2) (Nat.mul_le_mul_left 8 tag.width_le_eight)
  rw [hf] at hb
  rwa [hw, UInt64.toNat_ofNat', Nat.mod_eq_of_lt (hb.trans_le hp), Nat.mod_eq_of_lt hb] at hs

/-- A field of doubles treats a number like its double. -/
theorem stores_asDouble {v : Value} (hv : v.isNumeric = true) :
    codec.Stores .float64 v v.asDouble.bits :=
  codec.stores_bits hv rfl rfl

theorem returns_asDouble {v : Value} (hv : v.isNumeric = true) :
    codec.Returns .float64 v (.double v.asDouble) := by
  have hn : Scalar.IsNative .float64 (.double v.asDouble) := rfl
  exact codec.returns_of_read_write hv fun order => Scalar.read_write order hn

/-- A field of integers treats a number like an integer with the same pattern. -/
theorem returns_of_word_eq {tag : Tag} (hk : tag.kind = .unsigned ∨ tag.kind = .signed)
    {v w : Value} (hv : v.isNumeric = true) (hw : v.word = w.word) (hn : Scalar.IsNormal tag w) :
    codec.Returns tag v w := by
  refine codec.returns_of_read_write hv fun order => ?_
  have hr := Scalar.read_write order hn.isNative
  rw [Scalar.norm_eq_self hn, Scalar.write, Scalar.word_of_integer hk, ← hw] at hr
  rwa [Scalar.write, Scalar.word_of_integer hk]

/-- A field of doubles stores an integer as the nearest double and gives this double back. If a
significand has the bits for the integer, the double denotes it, and a field of integers of 64 bits
gives it back from the double. -/
theorem integer_through_float64 {v : Value} {z : Int} (h : v.integer? = some z) :
    ∃ x : Double,
      (∀ codec : Codec, codec.Stores .float64 v x.bits ∧ codec.Returns .float64 v (.double x)) ∧
      x.IsNearest z ∧
      (|z| ≤ 2 ^ 53 → Format.binary64.datum x.bits = .number z ∧
        ∀ codec : Codec,
          (∃ k : Int64, k.toInt = z ∧ codec.Returns .int64 (.double x) (.signed k)) ∧
          (0 ≤ z → ∃ k : UInt64, (k.toNat : Int) = z ∧
            codec.Returns .uint64 (.double x) (.unsigned k))) := by
  have hv := Value.isNumeric_of_integer? h
  have hr := round_lt_of_natAbs_lt (Value.natAbs_lt_of_integer? h)
  have hx := Value.asDouble_of_integer? h
  refine ⟨v.asDouble, fun codec => ⟨codec.stores_asDouble hv, codec.returns_asDouble hv⟩, ?_,
    fun hz => ?_⟩
  · rw [hx]
    exact Floating.isNearest_ofInt (by decide) (by decide) hr
  · rw [hx]
    obtain ⟨hl, hu⟩ := abs_le.1 hz
    have hs : (Int64.ofInt z).toInt = z := Int64.toInt_ofInt_of_le (by omega) (by omega)
    refine ⟨datum_ofInt hz, fun codec => ⟨⟨_, hs, ?_⟩, fun h0 => ⟨.ofNat z.toNat, ?_⟩⟩⟩
    · exact codec.returns_of_word_eq (.inr rfl) rfl (word_double_ofInt hz (congrArg some hs))
        (Scalar.isNormal_int64 _)
    · have hn : ((UInt64.ofNat z.toNat).toNat : Int) = z := by
        rw [UInt64.toNat_ofNat']
        omega
      exact ⟨hn, codec.returns_of_word_eq (.inl rfl) rfl (word_double_ofInt hz (congrArg some hn))
        (Scalar.isNormal_uint64 _)⟩

/-- The first integer that is no double, a tie, in the bytes of a buffer; and the last one before
it, from its double into a field of unsigned integers. -/
theorem integer_through_float64_boundary :
    (∃ x : Double, x.IsNearest (9007199254740993 : Int) ∧ ∃ out p bytes,
      Codec.encodeInto ⟨.big⟩ [9, 9, 9, 9, 9, 9, 9, 9, 9] (.ofList [("n", ⟨.float64, 1, none⟩)])
          (.ofList [("n", .unsigned 9007199254740993)]) 1 = (out, .ok p) ∧
        Bytes.slice? out 1 9 = some bytes ∧ Bytes.value bytes.reverse = x.bits) ∧
    ∃ x : Double, Format.binary64.datum x.bits = .number (9007199254740992 : Int) ∧ ∃ out p,
      Codec.encodeInto ⟨.little⟩ [9, 9, 9, 9, 9, 9, 9, 9, 9] (.ofList [("n", ⟨.uint64, 1, none⟩)])
          (.ofList [("n", .double x)]) 1 = (out, .ok p) ∧
        (Codec.decode ⟨.little⟩ out (.ofList [("n", ⟨.uint64, 1, none⟩)]) 1).data.get? "n"
          = some (.unsigned 9007199254740992) := by
  constructor
  · obtain ⟨x, hcodec, hn, -⟩ := integer_through_float64 (v := .unsigned 9007199254740993) rfl
    have hs := (hcodec ⟨.big⟩).1 (.ofList [("n", ⟨.float64, 1, none⟩)])
      (.ofList [("n", .unsigned 9007199254740993)]) [9, 9, 9, 9, 9, 9, 9, 9, 9] 1 0 0
      ⟨"n", ⟨.float64, 1, none⟩⟩ ⟨⟨_, rfl⟩, rfl, ⟨_, rfl, rfl⟩, by decide⟩ rfl
    exact ⟨x, hn, hs⟩
  · obtain ⟨x, -, -, hexact⟩ := integer_through_float64 (v := .signed 9007199254740992) rfl
    obtain ⟨hd, hcodec⟩ := hexact (by decide)
    obtain ⟨k, hk, hr⟩ := (hcodec ⟨.little⟩).2 (by decide)
    obtain ⟨out, p, found, he, hg, hf⟩ := hr (.ofList [("n", ⟨.uint64, 1, none⟩)])
      (.ofList [("n", .double x)]) [9, 9, 9, 9, 9, 9, 9, 9, 9] 1 0 0 ⟨"n", ⟨.uint64, 1, none⟩⟩
      ⟨⟨_, rfl⟩, rfl, ⟨_, rfl, rfl⟩, by decide⟩ rfl fun j later hj hl => by
        rw [List.getElem?_eq_none (by exact hj)] at hl
        cases hl
    obtain rfl : found = .unsigned k := Option.some.inj hf
    have h53 : k = 9007199254740992 := UInt64.toNat_inj.1 (Int.natCast_inj.1 hk)
    exact ⟨x, hd, out, p, he, hg.trans (by rw [h53])⟩

end Codec

end BinaryLayout

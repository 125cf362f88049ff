import BinaryLayout.Proofs.Codec.Field
import BinaryLayout.Proofs.Codec.Walk

/-!
# What encoding writes

A record that is accepted has one image, the bytes of its fields one behind the other, whatever the
buffer and the offset (`encodeToBytes_eq`). An encoding walk stops where a decoding one does, and
what it leaves behind is the image as far as it came, over the buffer as it was
(`encodeInto_eq`, `encodeInto_layout`).
-/

namespace BinaryLayout

namespace Field

/-- The value of a record for a field. -/
def valueIn (field : Field) (record : Record) : Value := (record.get? field.name).getD default

/-- A record has a value for a field, of the shape the field takes. -/
def FitsIn (field : Field) (record : Record) : Prop :=
  ∃ value, record.get? field.name = some value ∧ field.descriptor.Fits value

theorem FitsIn.fits {field : Field} {record : Record} (h : field.FitsIn record) :
    field.descriptor.Fits (field.valueIn record) := by
  obtain ⟨value, hg, hf⟩ := h
  rwa [valueIn, hg]

theorem FitsIn.get?_eq {field : Field} {record : Record} (h : field.FitsIn record) :
    record.get? field.name = some (field.valueIn record) := by
  obtain ⟨value, hg, -⟩ := h
  rw [valueIn, hg, Option.getD_some]

end Field

/-- Encoding accepts a record for a layout. -/
def Definition.Accepts (definition : Definition) (record : Record) : Prop :=
  ∃ values, Codec.valuesFor record definition.fields = .ok values

namespace Codec

theorem valuesFor_eq_ok {record : Record} : ∀ {fields : List Field},
    (∀ field ∈ fields, field.FitsIn record) →
      valuesFor record fields = .ok (fields.map (·.valueIn record))
  | [], _ => rfl
  | field :: fields, h => by
    have hf := h field List.mem_cons_self
    have ht := valuesFor_eq_ok fun f hm => h f (List.mem_cons_of_mem _ hm)
    have hk : field.descriptor.check field.name (field.valueIn record) = .ok () :=
      Descriptor.check_eq_ok_iff.2 hf.fits
    simp only [valuesFor, hf.get?_eq, hk, ht, List.map_cons]
    rfl

theorem fitsIn_of_valuesFor {record : Record} {fields : List Field} {values : List Value}
    (h : valuesFor record fields = .ok values) : ∀ field ∈ fields, field.FitsIn record := by
  intro field hm
  have hz : (fields.zip values).map Prod.fst = fields :=
    List.map_fst_zip (Nat.le_of_eq (length_valuesFor h).symm)
  rw [← hz] at hm
  obtain ⟨item, hi, rfl⟩ := List.mem_map.1 hm
  obtain ⟨hg, hk⟩ := check_of_valuesFor h item hi
  exact ⟨item.2, hg, Descriptor.check_eq_ok_iff.1 hk⟩

theorem accepts_iff {definition : Definition} {record : Record} :
    definition.Accepts record ↔ ∀ field ∈ definition.fields, field.FitsIn record := by
  constructor
  · rintro ⟨values, h⟩
    exact fitsIn_of_valuesFor h
  · intro h
    exact ⟨_, valuesFor_eq_ok h⟩

theorem valuesFor_congr {record other : Record} : ∀ {fields : List Field},
    (∀ field ∈ fields, other.get? field.name = record.get? field.name) →
      valuesFor other fields = valuesFor record fields
  | [], _ => rfl
  | field :: fields, h => by
    have ht := valuesFor_congr fun f hm => h f (List.mem_cons_of_mem _ hm)
    simp only [valuesFor, h field List.mem_cons_self, ht]

variable (codec : Codec)

/-- The bytes of the value a record has for a field. -/
def fieldBytes (record : Record) (field : Field) : Bytes :=
  field.descriptor.image (codec.orderOf field.descriptor) (field.valueIn record)

/-- The bytes of the values of a record for fields, one behind the other. -/
def image (record : Record) (fields : List Field) : Bytes :=
  fields.flatMap (codec.fieldBytes record)

theorem image_cons (record : Record) (field : Field) (fields : List Field) :
    codec.image record (field :: fields)
      = codec.fieldBytes record field ++ codec.image record fields :=
  List.flatMap_cons

theorem image_append (record : Record) (fields others : List Field) :
    codec.image record (fields ++ others)
      = codec.image record fields ++ codec.image record others :=
  List.flatMap_append

theorem length_fieldBytes {record : Record} {field : Field} (hc : field.descriptor.count ≠ 0)
    (hf : field.FitsIn record) : (codec.fieldBytes record field).length = field.byteLength :=
  Descriptor.length_image _ hc hf.fits

theorem length_image {record : Record} : ∀ {fields : List Field},
    (∀ field ∈ fields, field.descriptor.count ≠ 0) → (∀ field ∈ fields, field.FitsIn record) →
      (codec.image record fields).length = Field.extent fields
  | [], _, _ => rfl
  | field :: fields, hc, hf => by
    have ht := length_image (fun f hm => hc f (List.mem_cons_of_mem _ hm))
      fun f hm => hf f (List.mem_cons_of_mem _ hm)
    have hh := codec.length_fieldBytes (hc field List.mem_cons_self) (hf field List.mem_cons_self)
    rw [image_cons, List.length_append, hh, ht, Field.extent_cons]

theorem length_image_take {record : Record} {fields : List Field}
    (hc : ∀ field ∈ fields, field.descriptor.count ≠ 0)
    (hf : ∀ field ∈ fields, field.FitsIn record) (k : Nat) :
    (codec.image record (fields.take k)).length = Field.extent (fields.take k) :=
  codec.length_image (fun f hm => hc f (List.mem_of_mem_take hm))
    fun f hm => hf f (List.mem_of_mem_take hm)

theorem image_take {record : Record} {fields : List Field}
    (hc : ∀ field ∈ fields, field.descriptor.count ≠ 0)
    (hf : ∀ field ∈ fields, field.FitsIn record) (k : Nat) :
    codec.image record (fields.take k)
      = (codec.image record fields).take (Field.extent (fields.take k)) := by
  have hl := codec.length_image_take hc hf k
  have hs := codec.image_append record (fields.take k) (fields.drop k)
  rw [List.take_append_drop] at hs
  rw [hs, List.take_left' hl]

/-! ## The walk -/

theorem writeFields_cons_of_le {buf : Bytes} {record : Record} {field : Field} {cursor : Nat}
    (hc : field.descriptor.count ≠ 0) (hf : field.FitsIn record)
    (h : cursor + field.byteLength ≤ buf.length) (rest : List (Field × Value)) :
    codec.writeFields ((field, field.valueIn record) :: rest) buf cursor
      = codec.writeFields rest (Bytes.overwrite buf cursor (codec.fieldBytes record field))
          (cursor + field.byteLength) := by
  have hw := Descriptor.write_eq_image (codec.orderOf field.descriptor) hc hf.fits
    (Bytes.length_window h)
  rw [fieldBytes, ← hw]
  exact if_pos h

theorem writeFields_cons_of_not_le {buf : Bytes} {field : Field} {cursor : Nat}
    (h : ¬cursor + field.byteLength ≤ buf.length) (value : Value) (rest : List (Field × Value)) :
    codec.writeFields ((field, value) :: rest) buf cursor = (buf, ⟨cursor, true⟩) :=
  if_neg h

/-- An encoding walk overwrites the buffer with the image of the fields that fit. -/
theorem writeFields_eq {record : Record} : ∀ {fields : List Field},
    (∀ field ∈ fields, field.descriptor.count ≠ 0) → (∀ field ∈ fields, field.FitsIn record) →
      ∀ (buf : Bytes) (cursor : Nat),
        codec.writeFields (fields.map fun field => (field, field.valueIn record)) buf cursor
          = (Bytes.overwrite buf cursor
              (codec.image record (fields.take (Field.fitting buf.length fields cursor))),
            ⟨cursor + Field.extent (fields.take (Field.fitting buf.length fields cursor)),
              decide (Field.fitting buf.length fields cursor < fields.length)⟩)
  | [], _, _, buf, cursor => by
    simp [writeFields, image, Bytes.overwrite_nil]
  | field :: fields, hc, hf, buf, cursor => by
    have hcf := hc field List.mem_cons_self
    have hff := hf field List.mem_cons_self
    by_cases hle : cursor + field.byteLength ≤ buf.length
    · have hl := codec.length_fieldBytes hcf hff
      have hb : cursor + (codec.fieldBytes record field).length ≤ buf.length := by rwa [hl]
      have ih := writeFields_eq (fun f hm => hc f (List.mem_cons_of_mem _ hm))
        (fun f hm => hf f (List.mem_cons_of_mem _ hm))
        (Bytes.overwrite buf cursor (codec.fieldBytes record field)) (cursor + field.byteLength)
      -- the buffer keeps its length, so the fields behind fit as they did before
      have ho := Bytes.overwrite_append hb
      simp only [hl] at ho
      rw [Bytes.length_overwrite hb, ho] at ih
      rw [List.map_cons, codec.writeFields_cons_of_le hcf hff hle, ih,
        Field.fitting_cons_of_le hle, List.take_succ_cons, image_cons, Field.extent_cons,
        ← Nat.add_assoc]
      simp only [List.length_cons, Nat.add_lt_add_iff_right]
    · rw [List.map_cons, codec.writeFields_cons_of_not_le hle, Field.fitting_cons_of_not_le hle]
      simp [image, Bytes.overwrite_nil]

theorem encodeInto_eq {definition : Definition} {record : Record} (ha : definition.Accepts record)
    (buf : Bytes) (offset : Nat) :
    codec.encodeInto buf definition record offset
      = (Bytes.overwrite buf offset (codec.image record
            (definition.fields.take (Field.fitting buf.length definition.fields offset))),
          .ok ⟨definition.position offset (Field.fitting buf.length definition.fields offset),
            decide (Field.fitting buf.length definition.fields offset < definition.size)⟩) := by
  have hf := accepts_iff.1 ha
  have hw := codec.writeFields_eq definition.count_ne_zero hf buf offset
  have hle := Field.fitting_le buf.length definition.fields offset
  have hi := Definition.incomplete_or_position hle offset
  rw [List.map_prod_left_eq_zip] at hw
  simp only [encodeInto, valuesFor_eq_ok hf, hw]
  exact congrArg (fun b => (_, Except.ok (Progress.mk _ b))) hi

theorem accepts_of_encodeInto {definition : Definition} {record : Record} {buf out : Bytes}
    {offset : Nat} {p : Progress}
    (h : codec.encodeInto buf definition record offset = (out, .ok p)) :
    definition.Accepts record := by
  unfold encodeInto at h
  split at h
  · cases h
  · exact ⟨_, ‹_›⟩

theorem encodeInto_eq_of_le {definition : Definition} {record : Record}
    (ha : definition.Accepts record) {buf : Bytes} {offset : Nat}
    (h : offset + definition.byteSize ≤ buf.length) :
    codec.encodeInto buf definition record offset
      = (Bytes.overwrite buf offset (codec.image record definition.fields),
          .ok ⟨offset + definition.byteSize, false⟩) := by
  have hn : Field.fitting buf.length definition.fields offset = definition.fields.length :=
    Field.fitting_eq_length h
  have hs := codec.encodeInto_eq ha buf offset
  rw [hn, List.take_length, Definition.position_length, Definition.size] at hs
  simpa using hs

theorem encodeToBytes_eq {definition : Definition} {record : Record}
    (ha : definition.Accepts record) :
    codec.encodeToBytes definition record = .ok (codec.image record definition.fields) := by
  have hf := accepts_iff.1 ha
  have hl := codec.length_image definition.count_ne_zero hf
  have hr : (List.replicate definition.byteSize (0 : UInt8)).length = definition.byteSize :=
    List.length_replicate
  have hb : 0 + definition.byteSize ≤ (List.replicate definition.byteSize (0 : UInt8)).length := by
    rw [hr, Nat.zero_add]
  have hs := codec.encodeInto_eq_of_le ha hb
  rw [Bytes.overwrite_all (hl.trans hr.symm)] at hs
  rw [encodeToBytes_eq_encode]
  simp only [encode, hs]
  rfl

/-- What is accepted is what encoding gives bytes for. -/
theorem accepts_iff_encodeToBytes {definition : Definition} {record : Record} :
    definition.Accepts record ↔ ∃ bytes, codec.encodeToBytes definition record = .ok bytes := by
  constructor
  · intro ha
    exact ⟨_, codec.encodeToBytes_eq ha⟩
  · rintro ⟨bytes, h⟩
    rw [encodeToBytes] at h
    split at h
    · cases h
    · exact ⟨_, ‹_›⟩

/-! ## The layout of what is written -/

theorem encodeInto_congr {definition : Definition} {record other : Record}
    (h : ∀ field ∈ definition.fields, other.get? field.name = record.get? field.name)
    (buf : Bytes) (offset : Nat) :
    codec.encodeInto buf definition other offset
      = codec.encodeInto buf definition record offset := by
  simp only [encodeInto, valuesFor_congr h]

theorem encodeToBytes_congr {definition : Definition} {record other : Record}
    (h : ∀ field ∈ definition.fields, other.get? field.name = record.get? field.name) :
    codec.encodeToBytes definition other = codec.encodeToBytes definition record := by
  simp only [encodeToBytes_eq_encode, encode, codec.encodeInto_congr h]

theorem fields_ofList_single {field : Field} (hc : field.descriptor.count ≠ 0) :
    (Definition.ofList [(field.name, field.descriptor)]).fields = [field] := by
  simp [Definition.ofList, Definition.push, Definition.empty, Descriptor.repeated, hc]

theorem encodeToBytes_single {record : Record} {field : Field}
    (hc : field.descriptor.count ≠ 0) (hf : field.FitsIn record) :
    codec.encodeToBytes (.ofList [(field.name, field.descriptor)]) record
      = .ok (codec.fieldBytes record field) := by
  have ha : (Definition.ofList [(field.name, field.descriptor)]).Accepts record := by
    rw [accepts_iff, fields_ofList_single hc]
    simpa using hf
  rw [encodeToBytes_eq codec ha, fields_ofList_single hc, image_cons]
  simp [image]

theorem mapM_eq_ok {α β ε : Type} {f : α → Except ε β} {g : α → β} : ∀ {items : List α},
    (∀ item ∈ items, f item = .ok (g item)) → items.mapM f = .ok (items.map g)
  | [], _ => rfl
  | item :: items, h => by
    have ht := mapM_eq_ok fun i hm => h i (List.mem_cons_of_mem _ hm)
    rw [List.mapM_cons, h item List.mem_cons_self, ht]
    rfl

/-- Encoding a record that is accepted ends where decoding does, on any buffer of that length. What
it writes is the leading part of one byte string, the fields' own encodings one behind the other,
and the rest of the buffer stays. Entries under other names than the fields' make no difference. -/
theorem encodeInto_layout {definition : Definition} {record : Record}
    (ha : definition.Accepts record) (buf : Bytes) (offset : Nat) :
    ∃ out p whole parts,
      codec.encodeInto buf definition record offset = (out, .ok p) ∧
      codec.encodeToBytes definition record = .ok whole ∧
      definition.fields.mapM (fun field =>
        codec.encodeToBytes (.ofList [(field.name, field.descriptor)]) record) = .ok parts ∧
      whole = parts.flatten ∧ whole.length = definition.byteSize ∧
      Bytes.Placed whole buf offset p.stop out ∧
      (∀ other : Bytes, other.length = buf.length →
        (codec.decode other definition offset).stop = p.stop ∧
          (codec.decode other definition offset).incomplete = p.incomplete) ∧
      ∀ other : Record, (∀ field ∈ definition.fields,
          other.get? field.name = record.get? field.name) →
        codec.encodeToBytes definition other = .ok whole ∧
          codec.encodeInto buf definition other offset = (out, .ok p) := by
  have hf := accepts_iff.1 ha
  have hl := codec.length_image definition.count_ne_zero hf
  refine ⟨_, _, _, definition.fields.map (codec.fieldBytes record),
    codec.encodeInto_eq ha buf offset, codec.encodeToBytes_eq ha, ?_, rfl, hl, ?_, ?_, ?_⟩
  · exact mapM_eq_ok fun field hm =>
      codec.encodeToBytes_single (definition.count_ne_zero field hm) (hf field hm)
  · -- a partial image is the leading part of the full one
    have hk := Field.extent_take_le definition.fields
      (Field.fitting buf.length definition.fields offset)
    rw [codec.image_take definition.count_ne_zero hf]
    refine Bytes.placed_overwrite (by rwa [hl]) ?_
    rcases Field.extent_fitting_le buf.length definition.fields offset with h0 | hle
    · exact .inl (by rw [h0]; rfl)
    · exact .inr hle
  · -- where a walk stops depends on the length of its buffer alone
    intro other ho
    rw [decode_eq, ho]
    exact ⟨rfl, rfl⟩
  · intro other ho
    rw [codec.encodeToBytes_congr ho, codec.encodeInto_congr ho]
    exact ⟨codec.encodeToBytes_eq ha, codec.encodeInto_eq ha buf offset⟩

/-- Entries in another order than the fields, and a buffer that ends inside the last field. -/
theorem encodeInto_layout_short :
    Definition.Accepts (.ofList [("a", ⟨.int16, 1, some .big⟩), ("t", ⟨.char, 3, none⟩),
        ("b", ⟨.uint8, 2, none⟩)])
      (.ofList [("t", .text "x"), ("b", .list [.signed 3, .unsigned 7]), ("a", .signed (-2))]) ∧
    ∃ out p whole,
      Codec.encodeInto ⟨.little⟩ [9, 9, 9, 9, 9, 9, 9] (.ofList [("a", ⟨.int16, 1, some .big⟩),
          ("t", ⟨.char, 3, none⟩), ("b", ⟨.uint8, 2, none⟩)])
        (.ofList [("t", .text "x"), ("b", .list [.signed 3, .unsigned 7]), ("a", .signed (-2))]) 1
        = (out, .ok p) ∧
      whole = [255, 254, 120, 0, 0, 3, 7] ∧
      Bytes.Placed whole [9, 9, 9, 9, 9, 9, 9] 1 p.stop out := by
  have ha : Definition.Accepts (.ofList [("a", ⟨.int16, 1, some .big⟩), ("t", ⟨.char, 3, none⟩),
        ("b", ⟨.uint8, 2, none⟩)])
      (.ofList [("t", .text "x"), ("b", .list [.signed 3, .unsigned 7]), ("a", .signed (-2))]) :=
    ⟨_, rfl⟩
  obtain ⟨out, p, whole, -, hi, hw, -, -, -, hp, -, -⟩ :=
    encodeInto_layout ⟨.little⟩ ha [9, 9, 9, 9, 9, 9, 9] 1
  refine ⟨ha, out, p, whole, hi, ?_, hp⟩
  exact Except.ok.inj (hw.symm.trans rfl)

end Codec

end BinaryLayout

import BinaryLayout.Proofs.Codec.Decoding
import BinaryLayout.Proofs.Codec.Encoding

/-!
# Round trips

Both walks pass the same positions, so a round trip of a layout is one of each of its fields. A
record whose values are those of the bytes has these bytes as its image (`image_of_entries`), and
where a record's image stands its values are read in their normal form (`readEntries_of_window`).
The first makes writing what was read give the same bytes (`encodeInto_decode`), the second makes
reading what was written give the same record up to normal forms (`decode_encodeToBytes`).
-/

namespace BinaryLayout

namespace Codec

variable (codec : Codec)

theorem decode_eq_of_complete {buf : Bytes} {definition : Definition} {offset : Nat}
    (h : (codec.decode buf definition offset).incomplete = false) :
    codec.decode buf definition offset
      = ⟨.ofList (codec.readEntries buf definition.fields offset),
          offset + definition.byteSize, false⟩ := by
  have hn : Field.fitting buf.length definition.fields offset = definition.fields.length :=
    Field.fitting_eq_length_iff.2 ((codec.decode_complete_iff buf definition offset).1 h)
  have he := codec.decode_eq buf definition offset
  rw [hn, List.take_length, Definition.position_length] at he
  rw [he, Definition.size]
  simp

/-! ## From bytes to bytes -/

theorem fitsIn_of_entries {buf : Bytes} {record : Record} : ∀ {fields : List Field} {cursor : Nat},
    (∀ e ∈ codec.readEntries buf fields cursor, record.get? e.1 = some e.2) →
      ∀ field ∈ fields, field.FitsIn record
  | [], _, _ => by simp
  | field :: fields, cursor, h => by
    simp only [readEntries, List.forall_mem_cons] at h
    rw [List.forall_mem_cons]
    exact ⟨⟨_, h.1, Descriptor.fits_read _ _ _⟩, fitsIn_of_entries h.2⟩

/-- A record with the values that were read has the bytes they were read from as its image. -/
theorem image_of_entries {buf : Bytes} {record : Record} : ∀ {fields : List Field} {cursor : Nat},
    (∀ field ∈ fields, field.descriptor.count ≠ 0) →
      (fields = [] ∨ cursor + Field.extent fields ≤ buf.length) →
        (∀ e ∈ codec.readEntries buf fields cursor, record.get? e.1 = some e.2) →
          codec.image record fields = Bytes.window buf cursor (Field.extent fields)
  -- an empty layout may start behind the end of the buffer
  | [], _, _, _, _ => by simp [image, Bytes.window]
  | field :: fields, cursor, hc, hl, h => by
    have hl : cursor + Field.extent (field :: fields) ≤ buf.length := by simpa using hl
    rw [Field.extent_cons] at hl
    simp only [List.forall_mem_cons] at hc
    simp only [readEntries, List.forall_mem_cons] at h
    have hw : (Bytes.window buf cursor field.byteLength).length = field.descriptor.byteLength :=
      Bytes.length_window (by omega)
    have hf : codec.fieldBytes record field = Bytes.window buf cursor field.byteLength := by
      rw [fieldBytes, Field.valueIn, h.1, Option.getD_some, valueAt]
      exact Descriptor.image_read _ hc.1 hw
    have ht := image_of_entries hc.2 (.inr (by omega)) h.2
    rw [image_cons, hf, ht, Field.extent_cons, Bytes.window_add]

/-- What was read completely is accepted, and written anywhere at the same offset it gives the
bytes it was read from, and changes no others. -/
theorem encodeInto_decode {definition : Definition} (hd : definition.names.Nodup)
    {buf out : Bytes} {offset : Nat}
    (hr : (codec.decode buf definition offset).incomplete = false)
    (ho : (codec.decode buf definition offset).stop ≤ out.length) :
    ∃ result,
      codec.encodeInto out definition (codec.decode buf definition offset).data offset
        = (result, .ok ⟨(codec.decode buf definition offset).stop, false⟩) ∧
      result.length = out.length ∧
      (∀ i, offset ≤ i → i < (codec.decode buf definition offset).stop → result[i]? = buf[i]?) ∧
      ∀ i, i < offset ∨ (codec.decode buf definition offset).stop ≤ i →
        result[i]? = out[i]? := by
  have hl := (codec.decode_complete_iff buf definition offset).1 hr
  rw [codec.decode_eq_of_complete hr] at ho ⊢
  dsimp only at ho ⊢
  have he : ∀ e ∈ codec.readEntries buf definition.fields offset,
      (NameMap.ofList (codec.readEntries buf definition.fields offset)).get? e.1 = some e.2 := by
    intro e hm
    refine NameMap.get?_ofList_of_mem ?_ hm
    rwa [names_readEntries]
  have ha : definition.Accepts (.ofList (codec.readEntries buf definition.fields offset)) :=
    accepts_iff.2 (codec.fitsIn_of_entries he)
  have hi := codec.image_of_entries definition.count_ne_zero hl he
  have hs := codec.encodeInto_eq_of_le ha ho
  rw [hi] at hs
  have hw : (Bytes.window buf offset (Field.extent definition.fields)).length
      = definition.byteSize := by
    rw [← hi]
    exact codec.length_image definition.count_ne_zero (accepts_iff.1 ha)
  have hb : offset + (Bytes.window buf offset (Field.extent definition.fields)).length
      ≤ out.length := by rwa [hw]
  refine ⟨_, hs, Bytes.length_overwrite hb, fun i h1 h2 => ?_, fun i h => ?_⟩
  · have hi : i - offset < Field.extent definition.fields := Nat.sub_lt_left_of_lt_add h1 h2
    rw [Bytes.getElem?_overwrite_of_mem hb h1 (by rwa [hw]), Bytes.getElem?_window buf offset hi,
      Nat.add_sub_cancel' h1]
  · exact Bytes.getElem?_overwrite_of_not_mem (.inr hb) (by rwa [hw])

/-- Signed numbers below zero, a NaN with a payload, and a destination of another length. -/
theorem encodeInto_decode_nan :
    (Definition.ofList [("n", ⟨.int24, 2, some .big⟩), ("x", ⟨.float32, 1, none⟩),
        ("t", ⟨.char, 2, none⟩)]).names.Nodup ∧
      ∃ result, Codec.encodeInto ⟨.little⟩ [0, 0, 0, 0, 0, 0, 0, 0, 0, 0, 0, 0, 0, 0]
          (.ofList [("n", ⟨.int24, 2, some .big⟩), ("x", ⟨.float32, 1, none⟩),
            ("t", ⟨.char, 2, none⟩)])
          (Codec.decode ⟨.little⟩ [9, 255, 255, 254, 0, 0, 7, 1, 0, 160, 127, 233, 0]
            (.ofList [("n", ⟨.int24, 2, some .big⟩), ("x", ⟨.float32, 1, none⟩),
              ("t", ⟨.char, 2, none⟩)]) 1).data 1
        = (result, .ok ⟨13, false⟩) ∧ result[7]? = some 1 ∧ result[13]? = some 0 := by
  have hd : (Definition.ofList [("n", ⟨.int24, 2, some .big⟩), ("x", ⟨.float32, 1, none⟩),
      ("t", ⟨.char, 2, none⟩)]).names.Nodup := by decide
  have hr : (Codec.decode ⟨.little⟩ [9, 255, 255, 254, 0, 0, 7, 1, 0, 160, 127, 233, 0]
      (.ofList [("n", ⟨.int24, 2, some .big⟩), ("x", ⟨.float32, 1, none⟩),
        ("t", ⟨.char, 2, none⟩)]) 1).incomplete = false := rfl
  have ho : (Codec.decode ⟨.little⟩ [9, 255, 255, 254, 0, 0, 7, 1, 0, 160, 127, 233, 0]
      (.ofList [("n", ⟨.int24, 2, some .big⟩), ("x", ⟨.float32, 1, none⟩),
        ("t", ⟨.char, 2, none⟩)]) 1).stop
      ≤ ([0, 0, 0, 0, 0, 0, 0, 0, 0, 0, 0, 0, 0, 0] : Bytes).length := by decide
  obtain ⟨result, he, -, hin, hout⟩ := encodeInto_decode ⟨.little⟩ hd hr ho
  exact ⟨hd, result, he, hin 7 (by decide) (by decide), hout 13 (.inr (by decide))⟩

/-! ## From values to values -/

/-- The names of fields with the normal forms of a record's values for them. -/
def normEntries (record : Record) (fields : List Field) : List (String × Value) :=
  fields.map fun field => (field.name, field.descriptor.norm (field.valueIn record))

theorem names_normEntries (record : Record) (fields : List Field) :
    (normEntries record fields).map Prod.fst = fields.map (·.name) := by
  simp [normEntries]

theorem normEntries_append_cons (record : Record) (before : List Field) (field : Field)
    (after : List Field) : normEntries record (before ++ field :: after)
      = normEntries record before ++ (field.name, field.descriptor.norm (field.valueIn record))
        :: normEntries record after := by
  simp [normEntries]

/-- Where the image of a record stands, its values are read in their normal form. -/
theorem readEntries_of_window {buf : Bytes} {record : Record} :
    ∀ {fields : List Field} {cursor : Nat},
      (∀ field ∈ fields, field.descriptor.count ≠ 0) → (∀ field ∈ fields, field.FitsIn record) →
        (∀ field ∈ fields, field.descriptor.IsNative (field.valueIn record)) →
          cursor + Field.extent fields ≤ buf.length →
            Bytes.window buf cursor (Field.extent fields) = codec.image record fields →
              codec.readEntries buf fields cursor = normEntries record fields
  | [], _, _, _, _, _, _ => rfl
  | field :: fields, cursor, hc, hf, hn, hl, h => by
    simp only [List.forall_mem_cons] at hc hf hn
    rw [Field.extent_cons] at hl
    rw [Field.extent_cons, Bytes.window_add, image_cons] at h
    have hw : (Bytes.window buf cursor field.byteLength).length = field.byteLength :=
      Bytes.length_window (by omega)
    obtain ⟨hh, ht⟩ := List.append_inj h (hw.trans (codec.length_fieldBytes hc.1 hf.1).symm)
    have hv : codec.valueAt buf field cursor = field.descriptor.norm (field.valueIn record) := by
      rw [valueAt, hh]
      exact Descriptor.read_image _ hf.1.fits hn.1
    have hr := readEntries_of_window hc.2 hf.2 hn.2 (by omega) ht
    rw [readEntries, hv, hr]
    rfl

theorem decode_image {definition : Definition} {record : Record}
    (hf : ∀ field ∈ definition.fields, field.FitsIn record)
    (hn : ∀ field ∈ definition.fields, field.descriptor.IsNative (field.valueIn record)) :
    codec.decode (codec.image record definition.fields) definition 0
      = ⟨.ofList (normEntries record definition.fields), definition.byteSize, false⟩ := by
  have hl := codec.length_image definition.count_ne_zero hf
  have hb : 0 + Field.extent definition.fields ≤ (codec.image record definition.fields).length := by
    rw [hl, Nat.zero_add]
  have hr := (codec.decode_complete_iff _ definition 0).2 (.inr hb)
  rw [codec.decode_eq_of_complete hr, Nat.zero_add,
    codec.readEntries_of_window definition.count_ne_zero hf hn hb (Bytes.window_all hl)]

theorem get?_normEntries {record : Record} {before after : List Field} {field : Field}
    (h : ∀ later ∈ after, later.name ≠ field.name) :
    (NameMap.ofList (normEntries record (before ++ field :: after))).get? field.name
      = some (field.descriptor.norm (field.valueIn record)) := by
  rw [normEntries_append_cons]
  refine NameMap.get?_insertAll_of_last _ _ _ ?_
  rw [names_normEntries]
  intro hm
  obtain ⟨later, hl, he⟩ := List.mem_map.1 hm
  exact h later hl he

theorem ofList_normEntries_eq_self {record : Record} {fields : List Field}
    (hr : record.names = fields.map (·.name)) (hf : ∀ field ∈ fields, field.FitsIn record)
    (hn : ∀ field ∈ fields, field.descriptor.IsNormal (field.valueIn record)) :
    NameMap.ofList (normEntries record fields) = record := by
  have hd : (fields.map (·.name)).Nodup := hr ▸ record.nodup_names
  have hk : ((normEntries record fields).map Prod.fst).Nodup := by rwa [names_normEntries]
  have hs : (NameMap.ofList (normEntries record fields)).names = record.names := by
    rw [NameMap.names_ofList, names_normEntries, eraseDups_of_nodup hd, hr]
  refine NameMap.eq_of_get? hs fun name hm => ?_
  rw [hs, hr] at hm
  obtain ⟨field, hmf, rfl⟩ := List.mem_map.1 hm
  have hg : (NameMap.ofList (normEntries record fields)).get? field.name
      = some (field.descriptor.norm (field.valueIn record)) :=
    NameMap.get?_ofList_of_mem hk (List.mem_map_of_mem hmf)
  rw [hg, (hf field hmf).get?_eq, Descriptor.norm_eq_self (hn field hmf)]

/-- What a record without conversions is written as is read again completely: every name has the
normal form of the record's value, by its last field. A record that is normal is read as it was. -/
theorem decode_encodeToBytes {definition : Definition} {record : Record} {bytes : Bytes}
    (h : codec.encodeToBytes definition record = .ok bytes)
    (hn : ∀ field ∈ definition.fields, ∀ value, record.get? field.name = some value →
      field.descriptor.IsNative value) :
    (codec.decode bytes definition 0).incomplete = false ∧
      (codec.decode bytes definition 0).stop = definition.byteSize ∧
      (codec.decode bytes definition 0).data.names = definition.names.eraseDups ∧
      (∀ before field after, definition.fields = before ++ field :: after →
        (∀ later ∈ after, later.name ≠ field.name) →
        ∃ value, record.get? field.name = some value ∧
          (codec.decode bytes definition 0).data.get? field.name
            = some (field.descriptor.norm value)) ∧
      (record.names = definition.names →
        (∀ field ∈ definition.fields, ∀ value, record.get? field.name = some value →
          field.descriptor.IsNormal value) →
        (codec.decode bytes definition 0).data = record) := by
  have ha := codec.accepts_iff_encodeToBytes.2 ⟨bytes, h⟩
  have hf := accepts_iff.1 ha
  have hb : codec.image record definition.fields = bytes :=
    Except.ok.inj ((codec.encodeToBytes_eq ha).symm.trans h)
  have hd := codec.decode_image hf fun field hm => hn field hm _ (hf field hm).get?_eq
  rw [← hb, hd]
  refine ⟨rfl, rfl, ?_, ?_, ?_⟩
  · rw [NameMap.names_ofList, names_normEntries]
    rfl
  · intro before field after hs hl
    have hm : field ∈ definition.fields := by simp [hs]
    refine ⟨field.valueIn record, (hf field hm).get?_eq, ?_⟩
    rw [hs]
    exact get?_normEntries hl
  · intro hr hnorm
    exact ofList_normEntries_eq_self hr hf fun field hm => hnorm field hm _ (hf field hm).get?_eq

/-- A name that occurs twice, a number out of range, and text of another length. -/
theorem decode_encodeToBytes_twice :
    ∃ bytes, Codec.encodeToBytes ⟨.big⟩ (.ofList [("a", ⟨.uint8, 1, none⟩),
          ("t", ⟨.char, 3, none⟩), ("a", ⟨.int16, 1, none⟩)])
        (.ofList [("t", .text "x"), ("a", .unsigned 65535)]) = .ok bytes ∧
      (Codec.decode ⟨.big⟩ bytes (.ofList [("a", ⟨.uint8, 1, none⟩), ("t", ⟨.char, 3, none⟩),
        ("a", ⟨.int16, 1, none⟩)]) 0).data.names = ["a", "t"] ∧
      (Codec.decode ⟨.big⟩ bytes (.ofList [("a", ⟨.uint8, 1, none⟩), ("t", ⟨.char, 3, none⟩),
        ("a", ⟨.int16, 1, none⟩)]) 0).data.get? "a" = some (.signed (-1)) := by
  have h : Codec.encodeToBytes ⟨.big⟩ (.ofList [("a", ⟨.uint8, 1, none⟩),
        ("t", ⟨.char, 3, none⟩), ("a", ⟨.int16, 1, none⟩)])
      (.ofList [("t", .text "x"), ("a", .unsigned 65535)])
      = .ok [255, 120, 0, 0, 255, 255] := rfl
  have hn : ∀ field ∈ (Definition.ofList [("a", ⟨.uint8, 1, none⟩), ("t", ⟨.char, 3, none⟩),
      ("a", ⟨.int16, 1, none⟩)]).fields, ∀ value,
      NameMap.get? (.ofList [("t", .text "x"), ("a", .unsigned 65535)]) field.name = some value →
        field.descriptor.IsNative value := by
    intro field hm value hg
    simp only [Definition.ofList, Definition.push, Definition.empty, List.foldl_cons,
      List.foldl_nil, List.nil_append, List.cons_append, List.mem_cons, List.not_mem_nil,
      or_false] at hm
    rcases hm with rfl | rfl | rfl
    · cases hg
      exact .inl rfl
    · cases hg
      trivial
    · cases hg
      exact .inr rfl
  obtain ⟨-, -, hnames, hget, -⟩ := decode_encodeToBytes ⟨.big⟩ h hn
  obtain ⟨value, hv, hd⟩ := hget [⟨"a", ⟨.uint8, 1, none⟩⟩, ⟨"t", ⟨.char, 3, none⟩⟩]
    ⟨"a", ⟨.int16, 1, none⟩⟩ [] rfl (by simp)
  cases hv
  have hw : Descriptor.norm ⟨.int16, 1, none⟩ (.unsigned 65535) = .signed (-1) := by
    simp [Descriptor.norm, Scalar.norm, Value.integer?, Scalar.wrap, Tag.kind, Tag.bits, Tag.width]
  exact ⟨_, h, hnames, hd.trans (congrArg some hw)⟩

end Codec

end BinaryLayout

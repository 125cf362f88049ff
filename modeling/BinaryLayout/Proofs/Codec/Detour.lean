import BinaryLayout.Proofs.Codec.RoundTrip
import BinaryLayout.Proofs.Value.Json

/-!
# Bytes through JSON

What is decoded from fields of characters and integers has no floating-point number and is hardly
nested, so it comes back from its JSON text in its plain form. A field stores a value and its plain
form as the same bytes (`image_plain`), so writing what came back gives the bytes that were read
(`encodeInto_read?_render`).
-/

namespace BinaryLayout

namespace Value

theorem isNumeric_plain (v : Value) : v.plain.isNumeric = v.isNumeric := by
  cases v with
  | signed n =>
    rw [plain]
    split <;> rfl
  | _ => rfl

theorem text?_plain (v : Value) : v.plain.text? = v.text? := by
  cases v with
  | signed n =>
    rw [plain]
    split <;> rfl
  | _ => rfl

/-- Made unsigned, an integer keeps its two's complement pattern. -/
theorem word_plain (v : Value) : v.plain.word = v.word := by
  cases v with
  | signed n =>
    rw [plain]
    split <;> rfl
  | _ => rfl

end Value

namespace Scalar

theorem write_plain {tag : Tag} (h : tag.kind ≠ .float) (order : ByteOrder) (width : Nat)
    (v : Value) : write tag order width v.plain = write tag order width v := by
  have hw : word tag v.plain = word tag v := by
    cases hk : tag.kind with
    | float => exact absurd hk h
    | char => simp only [word, hk, Value.text?_plain]
    | signed => simp only [word, hk, Value.word_plain]
    | unsigned => simp only [word, hk, Value.word_plain]
  rw [write, hw, write]

theorem isFloatFree_read {tag : Tag} (h : tag.kind ≠ .float) (order : ByteOrder) (bytes : Bytes) :
    (read tag order bytes).isFloatFree = true := by
  cases hk : tag.kind with
  | float => exact absurd hk h
  | _ => simp only [read, hk, Value.isFloatFree]

theorem depth_toJson_read (tag : Tag) (order : ByteOrder) (bytes : Bytes) :
    (read tag order bytes).toJson.depth = 0 := by
  cases hk : tag.kind with
  | char => simp only [read, hk, Value.toJson, Json.ofText, Json.depth]
  | signed => simp only [read, hk, Value.toJson, Json.depth]
  | unsigned => simp only [read, hk, Value.toJson, Json.depth]
  | float =>
    simp only [read, hk]
    split
    · rw [Value.toJson, Json.ofFloating]
      split <;> rfl
    · rw [Value.toJson, Json.ofFloating]
      split <;> rfl

end Scalar

namespace Descriptor

variable {d : Descriptor}

theorem Fits.plain {v : Value} (h : d.Fits v) : d.Fits v.plain := by
  cases h with
  | text s ht => exact .text s ht
  | number ht hr hv => exact .number ht hr (by rwa [Value.isNumeric_plain])
  | list ht hr hl hv =>
    rw [Value.plain, Value.allPlain_eq_map]
    refine .list ht hr (by rwa [List.length_map]) (List.forall_mem_map.2 fun v hm => ?_)
    rw [Value.isNumeric_plain, hv v hm]

/-- A field that is not of floating-point numbers stores a plain value as the value itself. -/
theorem image_plain (h : d.tag.kind ≠ .float) (order : ByteOrder) {v : Value} (hf : d.Fits v) :
    d.image order v.plain = d.image order v := by
  have hw : Scalar.write d.tag order d.tag.width ∘ Value.plain
      = Scalar.write d.tag order d.tag.width := funext (Scalar.write_plain h order d.tag.width)
  cases hf with
  | text s ht => rfl
  | number ht hr hv =>
    have hp : v.plain.isNumeric = true := by rwa [Value.isNumeric_plain]
    rw [image_of_isNumeric order hp, image_of_isNumeric order hv, Scalar.write_plain h]
  | list ht hr hl hv =>
    rw [Value.plain, Value.allPlain_eq_map, image, image, List.flatMap_map]
    exact congrArg (List.flatMap · _) hw

theorem isFloatFree_read (h : d.tag.kind ≠ .float) (order : ByteOrder) (bytes : Bytes) :
    (d.read order bytes).isFloatFree = true := by
  rcases ht : d.tag.isChar with _ | _
  · rcases hr : d.isRepeated with _ | _
    · rw [read_of_single order bytes ht hr, Scalar.isFloatFree_read h]
    · rw [read_of_isRepeated order bytes ht hr, Value.isFloatFree, Value.areFloatFree_iff]
      exact List.forall_mem_map.2 fun piece _ => Scalar.isFloatFree_read h order piece
  · rw [read_of_isChar order bytes ht]
    rfl

theorem depthOfItems_allToJson : ∀ {vs : List Value}, (∀ v ∈ vs, v.toJson.depth = 0) →
    Json.depthOfItems (Value.allToJson vs) = 0
  | [], _ => rfl
  | v :: vs, h => by
    rw [List.forall_mem_cons] at h
    rw [Value.allToJson, Json.depthOfItems, h.1, depthOfItems_allToJson h.2, Nat.max_self]

theorem depth_toJson_read (d : Descriptor) (order : ByteOrder) (bytes : Bytes) :
    (d.read order bytes).toJson.depth ≤ 1 := by
  rcases ht : d.tag.isChar with _ | _
  · rcases hr : d.isRepeated with _ | _
    · rw [read_of_single order bytes ht hr, Scalar.depth_toJson_read]
      exact Nat.zero_le 1
    · have hi := depthOfItems_allToJson <| List.forall_mem_map.2
        fun piece (_ : piece ∈ Bytes.chunks d.tag.width d.count.toNat bytes) =>
          Scalar.depth_toJson_read d.tag order piece
      rw [read_of_isRepeated order bytes ht hr, Value.toJson, Json.depth, hi]
  · rw [read_of_isChar order bytes ht]
    exact Nat.zero_le 1

end Descriptor

namespace Codec

variable (codec : Codec)

theorem exists_of_mem_readEntries {buf : Bytes} : ∀ {fields : List Field} {cursor : Nat}
    {e : String × Value}, e ∈ codec.readEntries buf fields cursor →
      ∃ field ∈ fields, ∃ start, e = (field.name, codec.valueAt buf field start)
  | field :: fields, cursor, e, h => by
    rcases List.mem_cons.1 h with rfl | h
    · exact ⟨field, List.mem_cons_self, cursor, rfl⟩
    · obtain ⟨f, hm, start, he⟩ := exists_of_mem_readEntries h
      exact ⟨f, List.mem_cons_of_mem field hm, start, he⟩

theorem valueIn_plain (field : Field) (record : Record) :
    field.valueIn (record.map Value.plain) = (field.valueIn record).plain := by
  rw [Field.valueIn, Field.valueIn, NameMap.get?_map]
  cases record.get? field.name <;> rfl

theorem fitsIn_plain {field : Field} {record : Record} (h : field.FitsIn record) :
    field.FitsIn (record.map Value.plain) := by
  obtain ⟨value, hg, hf⟩ := h
  exact ⟨value.plain, by rw [NameMap.get?_map, hg, Option.map_some], hf.plain⟩

theorem image_plain {record : Record} {fields : List Field}
    (hk : ∀ field ∈ fields, field.descriptor.tag.kind ≠ .float)
    (hf : ∀ field ∈ fields, field.FitsIn record) :
    codec.image (record.map Value.plain) fields = codec.image record fields := by
  have hb : ∀ field ∈ fields,
      codec.fieldBytes (record.map Value.plain) field = codec.fieldBytes record field := by
    intro field hm
    rw [fieldBytes, valueIn_plain]
    exact Descriptor.image_plain (hk field hm) _ (hf field hm).fits
  rw [image, image, List.flatMap_def, List.flatMap_def, List.map_congr_left hb]

/-- A record whose image is what stands in a buffer is written over another one as just that. -/
theorem encodeInto_of_window {definition : Definition} {record : Record} {buf out : Bytes}
    {offset : Nat} (ha : definition.Accepts record) (ho : offset + definition.byteSize ≤ out.length)
    (hi : codec.image record definition.fields = Bytes.window buf offset definition.byteSize) :
    ∃ result, codec.encodeInto out definition record offset
        = (result, .ok ⟨offset + definition.byteSize, false⟩) ∧
      result.length = out.length ∧
      (∀ i, offset ≤ i → i < offset + definition.byteSize → result[i]? = buf[i]?) ∧
      ∀ i, i < offset ∨ offset + definition.byteSize ≤ i → result[i]? = out[i]? := by
  have hl := codec.length_image definition.count_ne_zero (accepts_iff.1 ha)
  have hs := codec.encodeInto_eq_of_le ha ho
  rw [hi] at hl hs
  have hb : offset + (Bytes.window buf offset definition.byteSize).length ≤ out.length := by
    rw [hl]
    exact ho
  refine ⟨_, hs, Bytes.length_overwrite hb, fun i h1 h2 => ?_, fun i h => ?_⟩
  · have hw : i - offset < definition.byteSize := Nat.sub_lt_left_of_lt_add h1 h2
    have hm := Bytes.getElem?_overwrite_of_mem hb h1 (by rw [hl]; exact h2)
    rw [hm, Bytes.getElem?_window buf offset hw, Nat.add_sub_cancel' h1]
  · refine Bytes.getElem?_overwrite_of_not_mem (.inr hb) ?_
    rw [hl]
    exact h

/-- What was read completely from fields without floating-point numbers is read back from its JSON
text with its integers made unsigned where they can be, and that record, written anywhere at the
same offset, gives the bytes that were read, and changes no others. -/
theorem encodeInto_read?_render {definition : Definition} (hd : definition.names.Nodup)
    (hk : ∀ field ∈ definition.fields, field.descriptor.tag.kind ≠ .float)
    {buf out : Bytes} {offset : Nat}
    (hr : (codec.decode buf definition offset).incomplete = false)
    (ho : (codec.decode buf definition offset).stop ≤ out.length) :
    ∃ record result,
      Record.read? (Record.render (codec.decode buf definition offset).data) = some record ∧
      record = (codec.decode buf definition offset).data.map Value.plain ∧
      codec.encodeInto out definition record offset
        = (result, .ok ⟨(codec.decode buf definition offset).stop, false⟩) ∧
      result.length = out.length ∧
      (∀ i, offset ≤ i → i < (codec.decode buf definition offset).stop → result[i]? = buf[i]?) ∧
      ∀ i, i < offset ∨ (codec.decode buf definition offset).stop ≤ i →
        result[i]? = out[i]? := by
  have hl := (codec.decode_complete_iff buf definition offset).1 hr
  rw [codec.decode_eq_of_complete hr] at ho ⊢
  dsimp only at ho ⊢
  have hn : ((codec.readEntries buf definition.fields offset).map Prod.fst).Nodup := by
    rwa [names_readEntries]
  have he : ∀ e ∈ codec.readEntries buf definition.fields offset,
      (NameMap.ofList (codec.readEntries buf definition.fields offset)).get? e.1 = some e.2 :=
    fun e hm => NameMap.get?_ofList_of_mem hn hm
  have hfit := codec.fitsIn_of_entries he
  have ha : definition.Accepts
      ((NameMap.ofList (codec.readEntries buf definition.fields offset)).map Value.plain) :=
    accepts_iff.2 fun field hm => fitsIn_plain (hfit field hm)
  have hi := codec.image_of_entries definition.count_ne_zero hl he
  rw [← codec.image_plain hk hfit] at hi
  obtain ⟨result, hres⟩ := codec.encodeInto_of_window ha ho hi
  refine ⟨_, result, Record.read?_render ?_ ?_, rfl, hres⟩
  · rw [NameMap.entries_ofList hn]
    intro e hm
    obtain ⟨field, hf, start, rfl⟩ := codec.exists_of_mem_readEntries hm
    exact Descriptor.isFloatFree_read (hk field hf) _ _
  · rw [NameMap.entries_ofList hn]
    intro e hm
    obtain ⟨field, hf, start, rfl⟩ := codec.exists_of_mem_readEntries hm
    exact Nat.lt_of_le_of_lt (Descriptor.depth_toJson_read _ _ _) (by decide)

/-- A name that must be escaped, controls in text, and integers with and without their top bit. -/
theorem encodeInto_read?_render_signed :
    (Definition.ofList [("a\"\n", ⟨.char, 3, none⟩), ("n", ⟨.int16, 2, some .big⟩)]).names.Nodup ∧
      ∃ record result,
        Record.read? (Record.render (Codec.decode ⟨.little⟩ [7, 34, 0, 233, 255, 254, 1, 2]
          (.ofList [("a\"\n", ⟨.char, 3, none⟩), ("n", ⟨.int16, 2, some .big⟩)]) 1).data)
          = some record ∧
        record.get? "n" = some (.list [.signed (-2), .unsigned 258]) ∧
        Codec.encodeInto ⟨.little⟩ [0, 0, 0, 0, 0, 0, 0, 0, 5]
          (.ofList [("a\"\n", ⟨.char, 3, none⟩), ("n", ⟨.int16, 2, some .big⟩)]) record 1
          = (result, .ok ⟨8, false⟩) ∧
        result[4]? = some 255 ∧ result[8]? = some 5 := by
  have hd : (Definition.ofList [("a\"\n", ⟨.char, 3, none⟩),
      ("n", ⟨.int16, 2, some .big⟩)]).names.Nodup := by decide
  have hk : ∀ field ∈ (Definition.ofList [("a\"\n", ⟨.char, 3, none⟩),
      ("n", ⟨.int16, 2, some .big⟩)]).fields, field.descriptor.tag.kind ≠ .float := by decide
  have hr : (Codec.decode ⟨.little⟩ [7, 34, 0, 233, 255, 254, 1, 2]
      (.ofList [("a\"\n", ⟨.char, 3, none⟩), ("n", ⟨.int16, 2, some .big⟩)]) 1).incomplete
      = false := rfl
  have ho : (Codec.decode ⟨.little⟩ [7, 34, 0, 233, 255, 254, 1, 2]
      (.ofList [("a\"\n", ⟨.char, 3, none⟩), ("n", ⟨.int16, 2, some .big⟩)]) 1).stop
      ≤ ([0, 0, 0, 0, 0, 0, 0, 0, 5] : Bytes).length := by decide
  obtain ⟨record, result, hread, rfl, henc, -, hin, hout⟩ :=
    encodeInto_read?_render ⟨.little⟩ hd hk hr ho
  refine ⟨hd, _, result, hread, ?_, henc, hin 4 (by decide) (by decide), hout 8 (.inr (by decide))⟩
  rw [NameMap.get?_map]
  rfl

end Codec

end BinaryLayout

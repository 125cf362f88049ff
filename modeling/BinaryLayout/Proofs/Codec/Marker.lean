import BinaryLayout.Proofs.Codec.Decoding
import BinaryLayout.Proofs.Codec.Encoding
import BinaryLayout.Proofs.Codec.Search

/-!
# Written text as a marker

A field that an encoding walk has come past stands in the buffer at its position
(`window_encodeInto`). A pattern of text is the bytes a field of characters holds for it, so it is
a prefix of what the field was written as, and a search from the field's position finds it there
(`ofText_found_in_field`).
-/

namespace BinaryLayout

namespace Definition

variable {definition : Definition} {k : Nat} {field : Field}

theorem byteLength_pos (h : definition.fields[k]? = some field) : 0 < field.byteLength := by
  have hc := definition.count_ne_zero field (List.mem_of_getElem? h)
  exact Nat.mul_pos field.descriptor.tag.width_pos
    (Nat.pos_of_ne_zero fun h0 => hc (UInt32.toNat_inj.1 h0))

/-- Every field takes a byte, so positions behind one another are positions of fields in order. -/
theorem lt_of_position_succ_le (h : definition.fields[k]? = some field) {offset n : Nat}
    (hle : definition.position offset (k + 1) ≤ definition.position offset n) : k < n := by
  by_contra hn
  have ht := Field.extent_take_le (definition.fields.take k) n
  rw [List.take_take, Nat.min_eq_left (Nat.not_lt.1 hn)] at ht
  have hp := byteLength_pos h
  rw [position_succ h, position, position] at hle
  omega

end Definition

namespace Codec

variable (codec : Codec)

/-- A field that the walk has come past stands at its position, as the bytes of its value. -/
theorem window_encodeInto {definition : Definition} {record : Record}
    (ha : definition.Accepts record) {buf : Bytes} {offset k : Nat} {field : Field}
    (hf : definition.fields[k]? = some field)
    (hk : k < Field.fitting buf.length definition.fields offset) :
    Bytes.window (codec.encodeInto buf definition record offset).1 (definition.position offset k)
      field.byteLength = codec.fieldBytes record field := by
  have hfit := accepts_iff.1 ha
  have hm := List.mem_of_getElem? hf
  have hl := codec.length_image_take definition.count_ne_zero hfit
  have hb := codec.length_fieldBytes (definition.count_ne_zero field hm) (hfit field hm)
  have hp : definition.position offset k
      = offset + (codec.image record (definition.fields.take k)).length := by
    rw [hl, Definition.position]
  have hle := (Field.extent_fitting_le buf.length definition.fields offset).resolve_left
    (Nat.ne_of_gt (Nat.zero_lt_of_lt hk))
  obtain ⟨after, hs, -⟩ := exists_take_eq_append hk hf
  rw [← hl, hs, image_append, image_cons] at hle
  rw [codec.encodeInto_eq ha, hs, image_append, image_cons, hp, ← hb]
  exact Bytes.window_overwrite_append _ _ hle

end Codec

namespace Pattern

theorem length_bytes_ofText (t : String) : (ofText t).bytes.length = t.length := by
  rw [← String.length_toList]
  exact List.length_map _

theorem bytes_ofText_ne_nil {t : String} (h : t ≠ "") : (ofText t).bytes ≠ [] := by
  intro hn
  have hl := length_bytes_ofText t
  rw [hn, List.length_nil] at hl
  exact h (String.length_eq_zero_iff.1 hl.symm)

/-- A field of characters begins with the pattern of a text that it is long enough for. -/
theorem bytes_ofText_prefix {d : Descriptor} (order : ByteOrder) {t : String}
    (h : t.length ≤ d.count.toNat) : (ofText t).bytes <+: d.image order (.text t) :=
  Text.prefix_padded ((length_bytes_ofText t).trans_le h)

theorem write_eq_bytes_ofText {d : Descriptor} (order : ByteOrder) {t : String} {window : Bytes}
    (hn : t ≠ "") (ht : d.tag = .char) (hc : d.count.toNat = t.length)
    (hw : window.length = d.byteLength) : d.write order (.text t) window = (ofText t).bytes := by
  have hpos : d.count ≠ 0 := by
    intro h0
    rw [h0] at hc
    exact hn (String.length_eq_zero_iff.1 hc.symm)
  have hfit : d.Fits (.text t) := .text t (by rw [ht]; rfl)
  rw [Descriptor.write_eq_image order hpos hfit hw, Descriptor.image, hc, ← length_bytes_ofText]
  exact Text.padded_length _

theorem occursAt_of_encodeInto {codec : Codec} {definition : Definition} {record : Record}
    {buf out : Bytes} {offset k : Nat} {p : Progress} {field : Field} {t : String}
    (h : codec.encodeInto buf definition record offset = (out, .ok p))
    (hf : definition.fields[k]? = some field) (hp : definition.position offset (k + 1) ≤ p.stop)
    (hg : record.get? field.name = some (.text t)) (hn : t ≠ "")
    (hl : t.length ≤ field.descriptor.count.toNat) :
    Bytes.OccursAt (ofText t).bytes out (definition.position offset k) := by
  have ha := codec.accepts_of_encodeInto h
  have hi := codec.encodeInto_eq ha buf offset
  rw [h] at hi
  rw [Except.ok.inj (congrArg Prod.snd hi)] at hp
  have hw := codec.window_encodeInto ha hf (Definition.lt_of_position_succ_le hf hp)
  rw [h, Codec.fieldBytes, Field.valueIn, hg, Option.getD_some] at hw
  have hpre := bytes_ofText_prefix (codec.orderOf field.descriptor) hl
  rw [← hw] at hpre
  exact (Bytes.occursAt_iff (bytes_ofText_ne_nil hn)).2 (hpre.trans (List.take_prefix _ _))

/-- A pattern of text has a byte for each character, its code modulo 256, and these are the bytes
that a field of as many characters is written as. In a buffer into which a record was written, a
text of it in a field that the walk has come past is found from the field's position on just there,
and a layout behind it is read from where the text ends. The text may be shorter than the field. -/
theorem ofText_found_in_field :
    (∀ t : String, (ofText t).bytes.map UInt8.toNat = t.toList.map fun c => c.toNat % 256) ∧
    (∀ (t : String) (d : Descriptor) (order : ByteOrder) (window : Bytes), t ≠ "" →
      d.tag = .char → d.count.toNat = t.length → window.length = d.byteLength →
        d.write order (.text t) window = (ofText t).bytes) ∧
    ∀ (codec : Codec) (definition : Definition) (record : Record) (buf out : Bytes) (offset : Nat)
      (p : Progress), codec.encodeInto buf definition record offset = (out, .ok p) →
      ∀ (k : Nat) (field : Field) (t : String), definition.fields[k]? = some field →
        definition.position offset (k + 1) ≤ p.stop →
        record.get? field.name = some (.text t) → t ≠ "" →
        t.length ≤ field.descriptor.count.toNat →
          (ofText t).search out (definition.position offset k)
            = some (definition.position offset k) ∧
          ∀ (other : Codec) (rest : Definition),
            other.decodeAfter out (ofText t) rest (definition.position offset k)
              = some (other.decode out rest (definition.position offset k + t.length)) := by
  refine ⟨Text.map_toNat_lowBytes,
    fun t d order window hn ht hc hw => write_eq_bytes_ofText order hn ht hc hw, ?_⟩
  intro codec definition record buf out offset p h k field t hf hp hg hn hl
  have hs : (ofText t).search out (definition.position offset k)
      = some (definition.position offset k) :=
    Bytes.find?_of_occursAt (bytes_ofText_ne_nil hn) (occursAt_of_encodeInto h hf hp hg hn hl)
  refine ⟨hs, fun other rest => ?_⟩
  rw [Codec.decodeAfter, hs, Option.map_some, size, length_bytes_ofText]

/-- Characters outside Latin-1 and a zero byte among them, in a field that is longer than its text
and behind which the buffer ends. -/
theorem ofText_found_in_field_wide :
    (ofText "é\u0100\u2665").bytes.map UInt8.toNat = [0xE9, 0, 0x65] ∧
    (∃ out, Codec.encodeInto ⟨.big⟩ [9, 9, 9, 9, 9, 9, 9, 9] (.ofList [("n", ⟨.int16, 1, none⟩),
          ("t", ⟨.char, 4, none⟩), ("z", ⟨.uint32, 1, none⟩)])
        (.ofList [("t", .text "é\u0100\u2665"), ("n", .signed 5), ("z", .unsigned 1)]) 1
        = (out, .ok ⟨7, true⟩) ∧
      (ofText "é\u0100\u2665").search out 3 = some 3 ∧
      Codec.decodeAfter ⟨.little⟩ out (ofText "é\u0100\u2665")
          (.ofList [("r", ⟨.uint16, 1, none⟩)]) 3
        = some (Codec.decode ⟨.little⟩ out (.ofList [("r", ⟨.uint16, 1, none⟩)]) 6)) ∧
    Descriptor.write ⟨.char, 3, none⟩ .little (.text "é\u0100\u2665") [1, 2, 3]
      = (ofText "é\u0100\u2665").bytes := by
  obtain ⟨hbytes, hwrite, hfound⟩ := ofText_found_in_field
  obtain ⟨hs, hd⟩ := hfound ⟨.big⟩ (.ofList [("n", ⟨.int16, 1, none⟩), ("t", ⟨.char, 4, none⟩),
      ("z", ⟨.uint32, 1, none⟩)])
    (.ofList [("t", .text "é\u0100\u2665"), ("n", .signed 5), ("z", .unsigned 1)])
    [9, 9, 9, 9, 9, 9, 9, 9] [9, 0, 5, 233, 0, 101, 0, 9] 1 ⟨7, true⟩ rfl 1
    ⟨"t", ⟨.char, 4, none⟩⟩ "é\u0100\u2665" rfl (by decide) rfl (by decide) (by decide)
  exact ⟨hbytes _, ⟨_, rfl, hs, hd _ _⟩, hwrite _ ⟨.char, 3, none⟩ _ _ (by decide) rfl rfl rfl⟩

end Pattern

end BinaryLayout

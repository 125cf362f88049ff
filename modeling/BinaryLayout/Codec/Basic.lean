import BinaryLayout.Codec.Field

/-!
# Decoding and encoding

A codec walks the fields of a layout from an offset into a buffer, with one byte order for the
fields that have none of their own. The walk stops before the first field that does not fit into
the buffer; it then answers how far it came, and what was read or written stays. For writing, the
whole record is checked before the first byte is.
-/

namespace BinaryLayout

structure Codec where
  defaultOrder : ByteOrder
  deriving DecidableEq

/-- What a decoding walk read: all fields unless `incomplete`, and the end of the last one. -/
structure Decoded where
  data : Record
  stop : Nat
  incomplete : Bool

/-- How far an encoding walk came. -/
structure Progress where
  stop : Nat
  incomplete : Bool
  deriving DecidableEq

/-- A buffer after an encoding walk. -/
structure Encoded where
  buffer : Bytes
  stop : Nat
  incomplete : Bool
  deriving DecidableEq

namespace Decoded

def isComplete (r : Decoded) : Bool := !r.incomplete

/-- The bytes read from `offset` on. -/
def consumed (r : Decoded) (offset : Nat) : Nat := r.stop - offset

end Decoded

namespace Encoded

def isComplete (r : Encoded) : Bool := !r.incomplete

end Encoded

namespace Codec

def host : Codec := ⟨.host⟩

instance : Inhabited Codec := ⟨host⟩

variable (codec : Codec)

def orderOf (d : Descriptor) : ByteOrder := d.resolvedOrder codec.defaultOrder

/-- Reads fields from a cursor on and adds them to a record. -/
def readFields (buf : Bytes) : List Field → Nat → Record → Decoded
  | [], cursor, data => ⟨data, cursor, false⟩
  | field :: fields, cursor, data =>
    let d := field.descriptor
    if cursor + d.byteLength ≤ buf.length then
      let value := d.read (codec.orderOf d) (Bytes.window buf cursor d.byteLength)
      readFields buf fields (cursor + d.byteLength) (data.insert field.name value)
    else ⟨data, cursor, true⟩

/-- A walk that is not stopped ends behind the last field, inside the buffer if there is any. -/
theorem stop_readFields {buf : Bytes} {fields : List Field} {cursor : Nat} {data : Record}
    (h : (codec.readFields buf fields cursor data).incomplete = false) :
    (codec.readFields buf fields cursor data).stop
        = cursor + Field.extent fields ∧
      ((codec.readFields buf fields cursor data).stop ≤ buf.length ∨
        (codec.readFields buf fields cursor data).stop = cursor) := by
  induction fields generalizing cursor data with
  | nil => exact ⟨rfl, .inr rfl⟩
  | cons field fields ih =>
    rw [readFields] at h ⊢
    split at h
    · rename_i hle
      rw [if_pos hle]
      obtain ⟨hs, hl⟩ := ih h
      refine ⟨?_, .inl ?_⟩
      · rw [hs, Field.extent_cons, Field.byteLength, Nat.add_assoc]
      · rcases hl with hl | hl
        · exact hl
        · exact Nat.le_trans (Nat.le_of_eq hl) hle
    · cases h

/-- Reads a layout at an offset. -/
def decode (buf : Bytes) (definition : Definition) (offset : Nat) : Decoded :=
  let r := codec.readFields buf definition.fields offset .empty
  { r with incomplete := r.incomplete || r.stop != offset + definition.byteSize }

/-- The values of a record for fields, each checked against its descriptor. -/
def valuesFor (record : Record) : List Field → Except CodecError (List Value)
  | [] => .ok []
  | field :: fields =>
    match record.get? field.name with
    | none => .error (.missingField field.name)
    | some value =>
      match field.descriptor.check field.name value with
      | .error e => .error e
      | .ok () => (valuesFor record fields).map (value :: ·)

theorem length_valuesFor {record : Record} {fields : List Field} {values : List Value}
    (h : valuesFor record fields = .ok values) : values.length = fields.length := by
  induction fields generalizing values with
  | nil =>
    cases h
    rfl
  | cons field fields ih =>
    rw [valuesFor] at h
    split at h
    · cases h
    · split at h
      · cases h
      · cases hv : valuesFor record fields with
        | error e =>
          rw [hv] at h
          cases h
        | ok vs =>
          rw [hv] at h
          cases h
          rw [List.length_cons, List.length_cons, ih hv]

/-- Every value is the record's and fits its field. -/
theorem check_of_valuesFor {record : Record} {fields : List Field} {values : List Value}
    (h : valuesFor record fields = .ok values) : ∀ item ∈ fields.zip values,
      record.get? item.1.name = some item.2 ∧
        item.1.descriptor.check item.1.name item.2 = .ok () := by
  induction fields generalizing values with
  | nil =>
    cases h
    intro item hm
    cases hm
  | cons field fields ih =>
    rw [valuesFor] at h
    split at h
    · cases h
    · rename_i value hg
      split at h
      · cases h
      · rename_i hk
        cases hv : valuesFor record fields with
        | error e =>
          rw [hv] at h
          cases h
        | ok vs =>
          rw [hv] at h
          cases h
          intro item hm
          rcases List.mem_cons.1 hm with rfl | hm
          · exact ⟨hg, hk⟩
          · exact ih hv item hm

/-- Writes values into their fields from a cursor on. -/
def writeFields : List (Field × Value) → Bytes → Nat → Bytes × Progress
  | [], buf, cursor => (buf, ⟨cursor, false⟩)
  | (field, value) :: rest, buf, cursor =>
    let d := field.descriptor
    if cursor + d.byteLength ≤ buf.length then
      let bytes := d.write (codec.orderOf d) value (Bytes.window buf cursor d.byteLength)
      writeFields rest (Bytes.overwrite buf cursor bytes) (cursor + d.byteLength)
    else (buf, ⟨cursor, true⟩)

@[simp] theorem length_writeFields (items : List (Field × Value)) (buf : Bytes) (cursor : Nat) :
    (codec.writeFields items buf cursor).1.length = buf.length := by
  induction items generalizing buf cursor with
  | nil => rfl
  | cons item items ih =>
    rw [writeFields]
    split
    · rename_i hle
      rw [ih]
      refine Bytes.length_overwrite ?_
      rwa [Descriptor.length_write, Bytes.length_window hle]
    · rfl

/-- A walk that is not stopped ends behind the last field, inside the buffer if there is any. -/
theorem stop_writeFields {items : List (Field × Value)} {buf : Bytes} {cursor : Nat}
    (h : (codec.writeFields items buf cursor).2.incomplete = false) :
    (codec.writeFields items buf cursor).2.stop
        = cursor + Field.extent (items.map Prod.fst) ∧
      ((codec.writeFields items buf cursor).2.stop ≤ buf.length ∨
        (codec.writeFields items buf cursor).2.stop = cursor) := by
  induction items generalizing buf cursor with
  | nil => exact ⟨rfl, .inr rfl⟩
  | cons item items ih =>
    obtain ⟨field, value⟩ := item
    rw [writeFields] at h ⊢
    split at h
    · rename_i hle
      rw [if_pos hle]
      obtain ⟨hs, hl⟩ := ih h
      rw [Bytes.length_overwrite (by rwa [Descriptor.length_write, Bytes.length_window hle])] at hl
      refine ⟨?_, .inl ?_⟩
      · rw [hs, List.map_cons, Field.extent_cons, Field.byteLength, Nat.add_assoc]
      · rcases hl with hl | hl
        · exact hl
        · exact Nat.le_trans (Nat.le_of_eq hl) hle
    · cases h

/-- Writes a record at an offset and gives back the buffer, also when the record is refused. -/
def encodeInto (buf : Bytes) (definition : Definition) (record : Record) (offset : Nat) :
    Bytes × Except CodecError Progress :=
  match valuesFor record definition.fields with
  | .error e => (buf, .error e)
  | .ok values =>
    let (buf, p) := codec.writeFields (definition.fields.zip values) buf offset
    (buf, .ok { p with incomplete := p.incomplete || p.stop != offset + definition.byteSize })

/-- Writes a record at an offset, unless it is refused. -/
def encode (buf : Bytes) (definition : Definition) (record : Record) (offset : Nat) :
    Except CodecError Encoded :=
  let (buf, result) := codec.encodeInto buf definition record offset
  result.map fun p => ⟨buf, p.stop, p.incomplete⟩

/-- Writes a record into a buffer of its own, of the size of the layout; the size stands for a sum
of 64 bits that does not overflow. The result is what `encode` leaves of a buffer of zeros
(`encodeToBytes_eq_encode`). Only the order of evaluation differs: the record is checked before the
buffer is made, so that one that is refused costs no buffer. -/
def encodeToBytes (definition : Definition) (record : Record) : Except CodecError Bytes :=
  match valuesFor record definition.fields with
  | .error e => .error e
  | .ok _ =>
    (codec.encode (List.replicate definition.byteSize 0) definition record 0).map (·.buffer)

/-- The buffer of zeros may as well be made first. -/
theorem encodeToBytes_eq_encode (definition : Definition) (record : Record) :
    codec.encodeToBytes definition record
      = (codec.encode (List.replicate definition.byteSize 0) definition record 0).map
          (·.buffer) := by
  rw [encodeToBytes]
  split
  · rename_i h
    rw [encode, encodeInto, h]
    rfl
  · rfl

end Codec

end BinaryLayout

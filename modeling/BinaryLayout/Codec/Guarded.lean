import BinaryLayout.Codec.Basic

/-!
# Guarded walks

The walks again, with every operation that is defined on part of its inputs tested where it is
used: sums and products of 64 bits, slices of a buffer, words of one to eight bytes, numbers that
fit their bytes, values and fields of exactly their length. Where a test fails there is no result.

Main statements: `Codec.decode?_eq` and `Codec.encodeInto?_eq`, every test passes, for all layouts,
records, buffers and offsets that a machine can hold.
-/

namespace BinaryLayout

namespace Word

/-- A sum of 64 bits. -/
def add? (m n : Nat) : Option Nat := if m + n < 2 ^ 64 then some (m + n) else none

/-- A product of 64 bits. -/
def mul? (m n : Nat) : Option Nat := if m * n < 2 ^ 64 then some (m * n) else none

/-- The lowest `width` bytes; the shift that makes the mask is below 64. -/
def lowBytes? (width : Nat) (word : UInt64) : Option Nat :=
  if width < 8 then
    if 8 * width < 64 then some (word.toNat % 2 ^ (8 * width)) else none
  else some word.toNat

end Word

namespace Bytes

/-- The bytes from `start` up to `stop`. -/
def slice? (buf : Bytes) (start stop : Nat) : Option Bytes :=
  if start ≤ stop ∧ stop ≤ buf.length then some (window buf start (stop - start)) else none

/-- Stores a number that fits into `width` bytes. -/
def store? (order : ByteOrder) (width n : Nat) : Option Bytes :=
  if IsWidth width ∧ n < 256 ^ width then some (order.arrange (digits width n)) else none

/-- The lowest bytes of a word fit, and are all that is written of it. -/
theorem lowBytes?_bind_store? (order : ByteOrder) {width : Nat} (h : IsWidth width)
    (word : UInt64) :
    (Word.lowBytes? width word).bind (store? order width) = some (writeUInt order width word) := by
  have hp := pow_width width
  rw [writeUInt, Word.lowBytes?]
  split
  · have hm : word.toNat % 2 ^ (8 * width) < 256 ^ width := by
      rw [hp]
      exact Nat.mod_lt _ (Nat.two_pow_pos _)
    have hd := digits_value (digits width word.toNat)
    rw [length_digits, value_digits, hp] at hd
    rw [if_pos (by omega), Option.bind_some, store?, if_pos ⟨h, hm⟩, hd]
  · have h8 : width = 8 := by
      have := h.2
      omega
    have hm : word.toNat < 256 ^ width := by
      rw [h8]
      exact word.toNat_lt
    rw [Option.bind_some, store?, if_pos ⟨h, hm⟩]

end Bytes

namespace Scalar

def read? (tag : Tag) (order : ByteOrder) (bytes : Bytes) : Option Value :=
  if bytes.length = tag.width then
    match tag.kind with
    | .char => some (.text (Text.ofBytes bytes))
    | .unsigned => (Bytes.readUInt? order bytes).map .unsigned
    | .signed => (Bytes.readInt? order bytes).map .signed
    | .float => (Bytes.readUInt? order bytes).map fun word =>
      if tag = .float32 then .single (.ofBits word.toNat) else .double (.ofBits word.toNat)
  else none

def write? (tag : Tag) (order : ByteOrder) (width : Nat) (value : Value) : Option Bytes :=
  if width = tag.width then
    (Word.lowBytes? width (word tag value)).bind (Bytes.store? order width)
  else none

theorem read?_eq {tag : Tag} {bytes : Bytes} (order : ByteOrder)
    (h : bytes.length = tag.width) : read? tag order bytes = some (read tag order bytes) := by
  have hw : Bytes.IsWidth bytes.length := by
    rw [h]
    exact ⟨tag.width_pos, tag.width_le_eight⟩
  rw [read?, if_pos h, Bytes.readUInt?, Bytes.readInt?, if_pos hw, if_pos hw, read]
  cases tag.kind <;> rfl

theorem write?_eq {tag : Tag} {width : Nat} (order : ByteOrder) (value : Value)
    (h : width = tag.width) :
    write? tag order width value = some (write tag order width value) := by
  have hw : Bytes.IsWidth width := by
    rw [h]
    exact ⟨tag.width_pos, tag.width_le_eight⟩
  rw [write?, if_pos h, Bytes.lowBytes?_bind_store? order hw, write]

end Scalar

namespace Descriptor

/-- The bytes of the whole field, in 64 bits. -/
def byteLength? (d : Descriptor) : Option Nat := Word.mul? d.tag.width d.count.toNat

def read? (d : Descriptor) (order : ByteOrder) (bytes : Bytes) : Option Value :=
  if bytes.length = d.tag.width * d.count.toNat then
    if d.tag.isChar then some (.text (Text.ofBytes bytes))
    else if d.isRepeated then
      ((Bytes.chunks d.tag.width d.count.toNat bytes).mapM (Scalar.read? d.tag order)).map .list
    else Scalar.read? d.tag order bytes
  else none

def writeItems? (tag : Tag) (order : ByteOrder) : List Value → Bytes → Option Bytes
  | [], window => some window
  | v :: vs, window =>
    if window.length < tag.width then some window
    else do
      let bytes ← Scalar.write? tag order tag.width v
      return bytes ++ (← writeItems? tag order vs (window.drop tag.width))

def write? (d : Descriptor) (order : ByteOrder) (value : Value) (window : Bytes) : Option Bytes :=
  if window.length = d.tag.width * d.count.toNat then
    if d.tag.isChar then some (Text.padded window.length (Text.lowBytes (value.text?.getD "")))
    else match value with
      | .list items => writeItems? d.tag order items window
      | value => Scalar.write? d.tag order window.length value
  else none

theorem byteLength_lt (d : Descriptor) : d.byteLength < 2 ^ 35 := by
  have h := Nat.mul_le_mul d.tag.width_le_eight (Nat.le_of_lt d.count.toNat_lt)
  have hc := d.count.toNat_lt
  have : d.tag.width * d.count.toNat ≤ 8 * d.count.toNat :=
    Nat.mul_le_mul_right _ d.tag.width_le_eight
  rw [byteLength]
  omega

theorem byteLength?_eq (d : Descriptor) : d.byteLength? = some d.byteLength := by
  have := d.byteLength_lt
  rw [byteLength] at this
  rw [byteLength?, Word.mul?, if_pos (by omega), byteLength]

theorem count_eq_one {d : Descriptor} (hc : d.count ≠ 0) (hr : d.isRepeated = false) :
    d.count.toNat = 1 := by
  have h1 : ¬1 < d.count := by simpa [isRepeated] using hr
  rw [UInt32.lt_iff_toNat_lt, UInt32.toNat_one] at h1
  have h0 : d.count.toNat ≠ 0 := fun h => hc (UInt32.toNat_inj.1 (by simpa using h))
  omega

/-- Every item of a repeated field is as long as its tag is wide. -/
theorem mapM_read?_chunks (tag : Tag) (order : ByteOrder) {count : Nat} {bytes : Bytes}
    (h : bytes.length = tag.width * count) :
    (Bytes.chunks tag.width count bytes).mapM (Scalar.read? tag order)
      = some ((Bytes.chunks tag.width count bytes).map (Scalar.read tag order)) := by
  induction count generalizing bytes with
  | zero => rfl
  | succ count ih =>
    rw [Nat.mul_succ] at h
    have ht : (bytes.take tag.width).length = tag.width := by
      rw [List.length_take]
      omega
    have hd : (bytes.drop tag.width).length = tag.width * count := by
      rw [List.length_drop]
      omega
    rw [Bytes.chunks, List.mapM_cons, Scalar.read?_eq order ht, ih hd]
    rfl

theorem read?_eq {d : Descriptor} {bytes : Bytes} (order : ByteOrder) (hc : d.count ≠ 0)
    (h : bytes.length = d.byteLength) : d.read? order bytes = some (d.read order bytes) := by
  rw [byteLength] at h
  rw [read?, if_pos h, read]
  split
  · rfl
  · split
    · rw [mapM_read?_chunks d.tag order h]
      rfl
    · rename_i hr
      have := count_eq_one hc (Bool.not_eq_true _ ▸ hr)
      exact Scalar.read?_eq order (by rw [h, this, Nat.mul_one])

theorem writeItems?_eq (tag : Tag) (order : ByteOrder) (vs : List Value) (window : Bytes) :
    writeItems? tag order vs window = some (writeItems tag order vs window) := by
  induction vs generalizing window with
  | nil => rfl
  | cons v vs ih =>
    rw [writeItems?, writeItems]
    split
    · rfl
    · rw [Scalar.write?_eq order v rfl, ih]
      rfl

theorem write?_eq {d : Descriptor} {name : String} {value : Value} {window : Bytes}
    (order : ByteOrder) (hc : d.count ≠ 0) (hv : d.check name value = .ok ())
    (h : window.length = d.byteLength) :
    d.write? order value window = some (d.write order value window) := by
  rw [byteLength] at h
  unfold write? write
  rw [if_pos h]
  unfold check at hv
  split
  · rfl
  · rename_i hchar
    rw [if_neg hchar] at hv
    cases value with
    | list items => exact writeItems?_eq d.tag order items window
    | _ =>
      have hr : d.isRepeated = false := by
        cases hr : d.isRepeated with
        | false => rfl
        | true =>
          rw [hr] at hv
          cases hv
      exact Scalar.write?_eq order _ (by rw [h, count_eq_one hc hr, Nat.mul_one])

end Descriptor

namespace Definition

/-- The bytes of all fields together, in 64 bits. -/
def byteSize? (definition : Definition) : Option Nat :=
  definition.fields.foldlM
    (fun total field => field.descriptor.byteLength?.bind (Word.add? total)) 0

/-- From a total on, the fields are added to it one by one. -/
theorem foldlM_add?_eq {fields : List Field} {total : Nat}
    (h : total + Field.extent fields < 2 ^ 64) :
    fields.foldlM (fun total field => field.descriptor.byteLength?.bind (Word.add? total)) total
      = some (total + Field.extent fields) := by
  induction fields generalizing total with
  | nil => rfl
  | cons field fields ih =>
    rw [Field.extent_cons, Field.byteLength, ← Nat.add_assoc] at h
    have hs : total + field.descriptor.byteLength < 2 ^ 64 := by omega
    rw [List.foldlM_cons, Descriptor.byteLength?_eq, Option.bind_some, Word.add?, if_pos hs,
      Option.bind_eq_bind, Option.bind_some, ih h, Field.extent_cons, Field.byteLength,
      Nat.add_assoc]

theorem byteSize?_eq {definition : Definition} (h : definition.byteSize < 2 ^ 64) :
    definition.byteSize? = some definition.byteSize := by
  rw [Definition.byteSize, ← Nat.zero_add (Field.extent _)] at h
  rw [byteSize?, foldlM_add?_eq h, Nat.zero_add, Definition.byteSize]

end Definition

namespace Codec

variable (codec : Codec)

/-- Where a field that starts at a cursor ends, if it does so within a buffer. -/
def fieldEnd? (buf : Bytes) (d : Descriptor) (cursor : Nat) : Option (Option Nat) := do
  let length ← d.byteLength?
  return (Word.add? cursor length).filter (· ≤ buf.length)

theorem fieldEnd?_eq {buf : Bytes} (hb : buf.length < 2 ^ 64) (d : Descriptor) (cursor : Nat) :
    fieldEnd? buf d cursor = some (if cursor + d.byteLength ≤ buf.length
      then some (cursor + d.byteLength) else none) := by
  rw [fieldEnd?, Descriptor.byteLength?_eq]
  show some ((Word.add? cursor d.byteLength).filter (· ≤ buf.length)) = _
  congr 1
  rw [Word.add?]
  by_cases hle : cursor + d.byteLength ≤ buf.length
  · rw [if_pos (by omega), if_pos hle, Option.filter_some, decide_eq_true hle, if_pos rfl]
  · rw [if_neg hle]
    split
    · rw [Option.filter_some, decide_eq_false hle]
      rfl
    · rfl

theorem slice?_eq {buf : Bytes} {start length : Nat} (h : start + length ≤ buf.length) :
    Bytes.slice? buf start (start + length) = some (Bytes.window buf start length) := by
  rw [Bytes.slice?, if_pos ⟨Nat.le_add_right _ _, h⟩, Nat.add_sub_cancel_left]

def readFields? (buf : Bytes) : List Field → Nat → Record → Option Decoded
  | [], cursor, data => some ⟨data, cursor, false⟩
  | field :: fields, cursor, data => do
    let d := field.descriptor
    match ← fieldEnd? buf d cursor with
    | some stop =>
      let value ← d.read? (codec.orderOf d) (← Bytes.slice? buf cursor stop)
      readFields? buf fields stop (data.insert field.name value)
    | none => return ⟨data, cursor, true⟩

theorem readFields?_eq {buf : Bytes} (hb : buf.length < 2 ^ 64) {fields : List Field}
    (hc : ∀ field ∈ fields, field.descriptor.count ≠ 0) (cursor : Nat) (data : Record) :
    codec.readFields? buf fields cursor data = some (codec.readFields buf fields cursor data) := by
  induction fields generalizing cursor data with
  | nil => rfl
  | cons field fields ih =>
    rw [readFields?, readFields]
    simp only [fieldEnd?_eq hb, Option.bind_eq_bind, Option.bind_some]
    by_cases hle : cursor + field.descriptor.byteLength ≤ buf.length
    · simp only [if_pos hle]
      rw [slice?_eq hle, Option.bind_some,
        Descriptor.read?_eq _ (hc _ List.mem_cons_self) (Bytes.length_window hle), Option.bind_some]
      exact ih (fun f hf => hc f (List.mem_cons_of_mem _ hf)) _ _
    · simp only [if_neg hle]
      rfl

/-- Decoding; the size of the layout is added up only behind its last field. -/
def decode? (buf : Bytes) (definition : Definition) (offset : Nat) : Option Decoded := do
  let r ← codec.readFields? buf definition.fields offset .empty
  if r.incomplete then return r
  let expected ← Word.add? offset (← definition.byteSize?)
  return { r with incomplete := r.stop != expected }

/-- Decoding uses nothing outside its domain. -/
theorem decode?_eq {buf : Bytes} {offset : Nat} (hb : buf.length < 2 ^ 64) (ho : offset < 2 ^ 64)
    (definition : Definition) :
    codec.decode? buf definition offset = some (codec.decode buf definition offset) := by
  have hr := codec.readFields?_eq hb definition.count_ne_zero offset .empty
  rw [decode?, decode, hr]
  simp only [Option.bind_eq_bind, Option.bind_some]
  split
  · rename_i hi
    generalize codec.readFields buf definition.fields offset .empty = r at hi ⊢
    obtain ⟨data, stop, incomplete⟩ := r
    cases hi
    rfl
  · rename_i hi
    have hi : (codec.readFields buf definition.fields offset .empty).incomplete = false := by
      simpa using hi
    obtain ⟨hs, hl⟩ := codec.stop_readFields hi
    have hsize : offset + definition.byteSize < 2 ^ 64 := by
      rw [Definition.byteSize, ← hs]
      omega
    rw [Definition.byteSize?_eq (by omega), Option.bind_some, Word.add?, if_pos hsize]
    simp [hi]

def writeFields? : List (Field × Value) → Bytes → Nat → Option (Bytes × Progress)
  | [], buf, cursor => some (buf, ⟨cursor, false⟩)
  | (field, value) :: rest, buf, cursor => do
    let d := field.descriptor
    match ← fieldEnd? buf d cursor with
    | some stop =>
      let bytes ← d.write? (codec.orderOf d) value (← Bytes.slice? buf cursor stop)
      writeFields? rest (Bytes.overwrite buf cursor bytes) stop
    | none => return (buf, ⟨cursor, true⟩)

theorem writeFields?_eq {buf : Bytes} (hb : buf.length < 2 ^ 64) {items : List (Field × Value)}
    (hc : ∀ item ∈ items, item.1.descriptor.count ≠ 0)
    (hv : ∀ item ∈ items, item.1.descriptor.check item.1.name item.2 = .ok ()) (cursor : Nat) :
    codec.writeFields? items buf cursor = some (codec.writeFields items buf cursor) := by
  induction items generalizing buf cursor with
  | nil => rfl
  | cons item items ih =>
    obtain ⟨field, value⟩ := item
    rw [writeFields?, writeFields]
    simp only [fieldEnd?_eq hb, Option.bind_eq_bind, Option.bind_some]
    by_cases hle : cursor + field.descriptor.byteLength ≤ buf.length
    · simp only [if_pos hle]
      have hw := Bytes.length_window hle
      rw [slice?_eq hle, Option.bind_some, Descriptor.write?_eq _ (hc _ List.mem_cons_self)
        (hv _ List.mem_cons_self) hw, Option.bind_some]
      refine ih ?_ (fun i hi => hc i (List.mem_cons_of_mem _ hi))
        (fun i hi => hv i (List.mem_cons_of_mem _ hi)) _
      rwa [Bytes.length_overwrite (by rwa [Descriptor.length_write, hw])]
    · simp only [if_neg hle]
      rfl

/-- Encoding; a record that is refused is never written. -/
def encodeInto? (buf : Bytes) (definition : Definition) (record : Record) (offset : Nat) :
    Option (Bytes × Except CodecError Progress) :=
  match valuesFor record definition.fields with
  | .error e => some (buf, .error e)
  | .ok values => do
    let (buf, p) ← codec.writeFields? (definition.fields.zip values) buf offset
    if p.incomplete then return (buf, .ok p)
    let expected ← Word.add? offset (← definition.byteSize?)
    return (buf, .ok { p with incomplete := p.stop != expected })

/-- Encoding uses nothing outside its domain. -/
theorem encodeInto?_eq {buf : Bytes} {offset : Nat} (hb : buf.length < 2 ^ 64)
    (ho : offset < 2 ^ 64) (definition : Definition) (record : Record) :
    codec.encodeInto? buf definition record offset
      = some (codec.encodeInto buf definition record offset) := by
  rw [encodeInto?, encodeInto]
  cases hv : valuesFor record definition.fields with
  | error e => rfl
  | ok values =>
    have hz : (definition.fields.zip values).map Prod.fst = definition.fields :=
      List.map_fst_zip (Nat.le_of_eq (length_valuesFor hv).symm)
    have hw : codec.writeFields? (definition.fields.zip values) buf offset
        = some (codec.writeFields (definition.fields.zip values) buf offset) :=
      codec.writeFields?_eq hb
        (fun item hm => definition.count_ne_zero _ (hz ▸ List.mem_map_of_mem hm))
        (fun item hm => (check_of_valuesFor hv item hm).2) offset
    simp only [hw, Option.bind_eq_bind, Option.bind_some]
    split
    · rename_i hi
      generalize codec.writeFields (definition.fields.zip values) buf offset = r at hi ⊢
      obtain ⟨buf, stop, incomplete⟩ := r
      cases hi
      rfl
    · rename_i hi
      have hi : (codec.writeFields (definition.fields.zip values) buf offset).2.incomplete
          = false := by simpa using hi
      obtain ⟨hs, hl⟩ := codec.stop_writeFields hi
      have hsize : offset + definition.byteSize < 2 ^ 64 := by
        rw [hz] at hs
        rw [Definition.byteSize, ← hs]
        omega
      rw [Definition.byteSize?_eq (by omega), Option.bind_some, Word.add?, if_pos hsize]
      simp [hi]

end Codec

end BinaryLayout

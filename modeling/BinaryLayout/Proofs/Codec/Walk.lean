import BinaryLayout.Codec.Guarded
import BinaryLayout.Proofs.Byte.Splice
import BinaryLayout.Proofs.Insertion
import Mathlib.Order.Bounds.Basic

/-!
# How far a walk comes

A walk over fields ends behind the last one that ends inside the buffer, `fitting` of them, and
where that is depends on the length of the buffer alone (`isGreatest_fitting`). Decoding gives the
entries of just these fields (`readFields_eq`), so the size that is compared at its end never
differs (`decode_eq_readFields`, `decode_complete_iff`).
-/

namespace BinaryLayout

namespace Field

/-- How many fields, from a cursor on, end within `length` bytes. -/
def fitting (length : Nat) : List Field → Nat → Nat
  | [], _ => 0
  | field :: fields, cursor =>
    if cursor + field.byteLength ≤ length
      then fitting length fields (cursor + field.byteLength) + 1
      else 0

@[simp] theorem extent_append (fields others : List Field) :
    extent (fields ++ others) = extent fields + extent others := by
  induction fields with
  | nil => simp
  | cons field fields ih => rw [List.cons_append, extent_cons, extent_cons, ih, Nat.add_assoc]

theorem extent_take_le (fields : List Field) (k : Nat) :
    extent (fields.take k) ≤ extent fields := by
  have h := congrArg extent (List.take_append_drop k fields)
  rw [extent_append] at h
  omega

theorem fitting_cons_of_le {length : Nat} {field : Field} {cursor : Nat}
    (h : cursor + field.byteLength ≤ length) (fields : List Field) :
    fitting length (field :: fields) cursor
      = fitting length fields (cursor + field.byteLength) + 1 :=
  if_pos h

theorem fitting_cons_of_not_le {length : Nat} {field : Field} {cursor : Nat}
    (h : ¬cursor + field.byteLength ≤ length) (fields : List Field) :
    fitting length (field :: fields) cursor = 0 :=
  if_neg h

theorem fitting_le (length : Nat) : ∀ (fields : List Field) (cursor : Nat),
    fitting length fields cursor ≤ fields.length
  | [], _ => Nat.le_refl 0
  | field :: fields, cursor => by
    by_cases hle : cursor + field.byteLength ≤ length
    · rw [fitting_cons_of_le hle]
      exact Nat.succ_le_succ (fitting_le length fields _)
    · rw [fitting_cons_of_not_le hle]
      exact Nat.zero_le _

/-- What fits ends inside the buffer, unless it is nothing. -/
theorem extent_fitting_le (length : Nat) : ∀ (fields : List Field) (cursor : Nat),
    fitting length fields cursor = 0 ∨
      cursor + extent (fields.take (fitting length fields cursor)) ≤ length
  | [], _ => .inl rfl
  | field :: fields, cursor => by
    by_cases hle : cursor + field.byteLength ≤ length
    · rw [fitting_cons_of_le hle]
      rcases extent_fitting_le length fields (cursor + field.byteLength) with h | h
      · refine .inr ?_
        simpa [h] using hle
      · refine .inr ?_
        simpa [Nat.add_assoc] using h
    · exact .inl (fitting_cons_of_not_le hle fields)

/-- The field behind those that fit, if there is one, does not fit. -/
theorem lt_extent_take_fitting {length : Nat} : ∀ {fields : List Field} {cursor : Nat},
    fitting length fields cursor < fields.length →
      length < cursor + extent (fields.take (fitting length fields cursor + 1))
  | [], _, h => absurd h (Nat.lt_irrefl 0)
  | field :: fields, cursor, h => by
    by_cases hle : cursor + field.byteLength ≤ length
    · rw [fitting_cons_of_le hle, List.length_cons] at h
      rw [fitting_cons_of_le hle, List.take_succ_cons, extent_cons, ← Nat.add_assoc]
      exact lt_extent_take_fitting (Nat.lt_of_succ_lt_succ h)
    · rw [fitting_cons_of_not_le hle]
      simpa using hle

theorem fitting_eq_length {length : Nat} : ∀ {fields : List Field} {cursor : Nat},
    cursor + extent fields ≤ length → fitting length fields cursor = fields.length
  | [], _, _ => rfl
  | field :: fields, cursor, h => by
    rw [extent_cons] at h
    rw [fitting_cons_of_le (by omega), fitting_eq_length (by omega), List.length_cons]

theorem fitting_eq_length_iff {length : Nat} {fields : List Field} {cursor : Nat} :
    fitting length fields cursor = fields.length ↔
      fields = [] ∨ cursor + extent fields ≤ length := by
  constructor
  · intro h
    rcases extent_fitting_le length fields cursor with h0 | hle
    · exact .inl (List.length_eq_zero_iff.1 (h.symm.trans h0))
    · rw [h, List.take_length] at hle
      exact .inr hle
  · rintro (rfl | h)
    · rfl
    · exact fitting_eq_length h

/-- Of the numbers of leading fields that all end within `length` bytes, `fitting` is the
greatest. -/
theorem isGreatest_fitting (length : Nat) (fields : List Field) (cursor : Nat) :
    IsGreatest {k | k ≤ fields.length ∧
      ∀ i, 1 ≤ i → i ≤ k → cursor + extent (fields.take i) ≤ length}
      (fitting length fields cursor) := by
  refine ⟨⟨fitting_le length fields cursor, fun i h1 hi => ?_⟩, fun k ⟨hk, hle⟩ => ?_⟩
  · have ht := extent_take_le (fields.take (fitting length fields cursor)) i
    rw [List.take_take, Nat.min_eq_left hi] at ht
    rcases extent_fitting_le length fields cursor with h0 | hl
    · omega
    · exact Nat.le_trans (Nat.add_le_add_left ht cursor) hl
  · by_contra hlt
    have hlt : fitting length fields cursor < k := Nat.not_le.1 hlt
    have hn := lt_extent_take_fitting (Nat.lt_of_lt_of_le hlt hk)
    exact Nat.not_le.2 hn (hle _ (Nat.le_add_left 1 _) hlt)

end Field

namespace Definition

/-- Where the field with an index starts, in a layout read or written at `offset`. -/
def position (definition : Definition) (offset index : Nat) : Nat :=
  offset + Field.extent (definition.fields.take index)

theorem position_length (definition : Definition) (offset : Nat) :
    definition.position offset definition.fields.length = offset + definition.byteSize := by
  rw [position, List.take_length]
  rfl

theorem position_succ {definition : Definition} {index : Nat} {field : Field}
    (h : definition.fields[index]? = some field) (offset : Nat) :
    definition.position offset (index + 1)
      = definition.position offset index + field.byteLength := by
  rw [position, position, List.take_add_one, h, Field.extent_append]
  simp [Nat.add_assoc]

/-- Behind the last field the position is that of the end of the layout, so that comparing the two
flags nothing that a walk has not flagged. -/
theorem incomplete_or_position {definition : Definition} {k : Nat} (h : k ≤ definition.size)
    (offset : Nat) :
    (decide (k < definition.size)
        || definition.position offset k != offset + definition.byteSize)
      = decide (k < definition.size) := by
  rcases Nat.lt_or_eq_of_le h with hlt | rfl
  · rw [decide_eq_true hlt, Bool.true_or]
  · rw [size, position_length, bne_self_eq_false, Bool.or_false]

end Definition

namespace Codec

variable (codec : Codec)

/-- The value of a field that starts at a cursor. -/
def valueAt (buf : Bytes) (field : Field) (cursor : Nat) : Value :=
  field.descriptor.read (codec.orderOf field.descriptor) (Bytes.window buf cursor field.byteLength)

/-- The names and values of fields read from a cursor on. -/
def readEntries (buf : Bytes) : List Field → Nat → List (String × Value)
  | [], _ => []
  | field :: fields, cursor =>
    (field.name, codec.valueAt buf field cursor)
      :: readEntries buf fields (cursor + field.byteLength)

theorem readEntries_append (buf : Bytes) : ∀ (fields others : List Field) (cursor : Nat),
    codec.readEntries buf (fields ++ others) cursor
      = codec.readEntries buf fields cursor
        ++ codec.readEntries buf others (cursor + Field.extent fields)
  | [], _, _ => rfl
  | field :: fields, others, cursor => by
    simp only [List.cons_append, readEntries, readEntries_append buf fields, Field.extent_cons,
      Nat.add_assoc]

theorem names_readEntries (buf : Bytes) : ∀ (fields : List Field) (cursor : Nat),
    (codec.readEntries buf fields cursor).map Prod.fst = fields.map (·.name)
  | [], _ => rfl
  | field :: fields, cursor => by
    simp only [readEntries, List.map_cons, names_readEntries buf fields]

theorem readFields_cons_of_le {buf : Bytes} {field : Field} {cursor : Nat}
    (h : cursor + field.byteLength ≤ buf.length) (fields : List Field) (data : Record) :
    codec.readFields buf (field :: fields) cursor data
      = codec.readFields buf fields (cursor + field.byteLength)
          (data.insert field.name (codec.valueAt buf field cursor)) :=
  if_pos h

theorem readFields_cons_of_not_le {buf : Bytes} {field : Field} {cursor : Nat}
    (h : ¬cursor + field.byteLength ≤ buf.length) (fields : List Field) (data : Record) :
    codec.readFields buf (field :: fields) cursor data = ⟨data, cursor, true⟩ :=
  if_neg h

/-- A decoding walk inserts the entries of the fields that fit. -/
theorem readFields_eq (buf : Bytes) : ∀ (fields : List Field) (cursor : Nat) (data : Record),
    codec.readFields buf fields cursor data
      = ⟨data.insertAll (codec.readEntries buf
            (fields.take (Field.fitting buf.length fields cursor)) cursor),
          cursor + Field.extent (fields.take (Field.fitting buf.length fields cursor)),
          decide (Field.fitting buf.length fields cursor < fields.length)⟩
  | [], _, _ => rfl
  | field :: fields, cursor, data => by
    by_cases hle : cursor + field.byteLength ≤ buf.length
    · rw [codec.readFields_cons_of_le hle, Field.fitting_cons_of_le hle, readFields_eq buf fields,
        List.take_succ_cons, readEntries, NameMap.insertAll_cons, Field.extent_cons,
        ← Nat.add_assoc]
      simp only [List.length_cons, Nat.add_lt_add_iff_right]
    · rw [codec.readFields_cons_of_not_le hle, Field.fitting_cons_of_not_le hle]
      simp [NameMap.insertAll_nil, readEntries]

/-- The comparison with the size of the layout adds nothing: it agrees with the walk. -/
theorem decode_eq_readFields (buf : Bytes) (definition : Definition) (offset : Nat) :
    codec.decode buf definition offset = codec.readFields buf definition.fields offset .empty := by
  have hle := Field.fitting_le buf.length definition.fields offset
  have hi := Definition.incomplete_or_position hle offset
  rw [decode, readFields_eq]
  exact congrArg (Decoded.mk _ _) hi

theorem decode_eq (buf : Bytes) (definition : Definition) (offset : Nat) :
    codec.decode buf definition offset
      = ⟨.ofList (codec.readEntries buf
            (definition.fields.take (Field.fitting buf.length definition.fields offset)) offset),
          definition.position offset (Field.fitting buf.length definition.fields offset),
          decide (Field.fitting buf.length definition.fields offset < definition.size)⟩ := by
  rw [decode_eq_readFields, readFields_eq]
  rfl

theorem decode_complete_iff (buf : Bytes) (definition : Definition) (offset : Nat) :
    (codec.decode buf definition offset).incomplete = false ↔
      definition.fields = [] ∨ offset + definition.byteSize ≤ buf.length := by
  have hle := Field.fitting_le buf.length definition.fields offset
  rw [decode_eq, decide_eq_false_iff_not, Nat.not_lt]
  exact ⟨fun h => Field.fitting_eq_length_iff.1 (Nat.le_antisymm hle h),
    fun h => Nat.le_of_eq (Field.fitting_eq_length_iff.2 h).symm⟩

end Codec

end BinaryLayout

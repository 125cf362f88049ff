import BinaryLayout.Proofs.Codec.Encoding

/-!
# How encoding fails

A record is refused for the first field, in the order of the layout, that has no value in it or one
of the wrong shape (`exists_refuses_of_valuesFor`). The refusal is settled before the first byte is
written, so it is the same for every buffer, offset and codec, and the buffer stays as it was
(`encodeInto_refusal`). There is no other way to fail: for every other operation that is defined on
part of its inputs, the walks stay inside that part (`guarded_eq_walks`).
-/

namespace BinaryLayout

namespace Descriptor

variable {d : Descriptor}

/-- Every error of a check names the field it is about. -/
theorem eq_valueMismatch_of_check {name : String} {v : Value} {e : CodecError}
    (h : d.check name v = .error e) : ∃ expected found, e = .valueMismatch name expected found := by
  unfold check at h
  split at h
  · split at h
    · cases h
    · cases h
      exact ⟨_, _, rfl⟩
  split at h
  · split at h
    · cases h
    · cases h
      exact ⟨_, _, rfl⟩
  simp only [] at h
  split at h
  · split at h
    · cases h
      exact ⟨_, _, rfl⟩
    · split at h
      · cases h
        exact ⟨_, _, rfl⟩
      · cases h
  · cases h
    exact ⟨_, _, rfl⟩

theorem exists_check_eq_error (name : String) {v : Value} (h : ¬d.Fits v) :
    ∃ expected found, d.check name v = .error (.valueMismatch name expected found) := by
  cases hk : d.check name v with
  | ok u => exact absurd (check_eq_ok_iff.1 hk) h
  | error e =>
    obtain ⟨expected, found, rfl⟩ := eq_valueMismatch_of_check hk
    exact ⟨expected, found, rfl⟩

end Descriptor

namespace Field

/-- A record is refused for a field: it has no value for it, or one of the wrong shape. -/
inductive Refuses (field : Field) (record : Record) : CodecError → Prop
  | missing : record.get? field.name = none → Refuses field record (.missingField field.name)
  | mismatch {value : Value} {expected found : String} : record.get? field.name = some value →
    ¬field.descriptor.Fits value →
      Refuses field record (.valueMismatch field.name expected found)

theorem Refuses.not_fitsIn {field : Field} {record : Record} {e : CodecError}
    (h : field.Refuses record e) : ¬field.FitsIn record := by
  rintro ⟨value, hg, hf⟩
  cases h with
  | missing hn =>
    rw [hn] at hg
    cases hg
  | mismatch hv hnf =>
    rw [hv] at hg
    cases hg
    exact hnf hf

end Field

namespace Codec

theorem valuesFor_cons_of_fitsIn {record : Record} {field : Field} (h : field.FitsIn record)
    (fields : List Field) : valuesFor record (field :: fields)
      = (valuesFor record fields).map (field.valueIn record :: ·) := by
  have hk : field.descriptor.check field.name (field.valueIn record) = .ok () :=
    Descriptor.check_eq_ok_iff.2 h.fits
  simp only [valuesFor, h.get?_eq, hk]

/-- The first field settles the refusal, whatever fields follow it. -/
theorem valuesFor_cons_of_not_fitsIn {record : Record} {field : Field}
    (h : ¬field.FitsIn record) (fields : List Field) :
    ∃ e, field.Refuses record e ∧ valuesFor record (field :: fields) = .error e := by
  cases hg : record.get? field.name with
  | none => exact ⟨_, .missing hg, by simp only [valuesFor, hg]⟩
  | some value =>
    have hnf : ¬field.descriptor.Fits value := fun hf => h ⟨value, hg, hf⟩
    obtain ⟨expected, found, hk⟩ := Descriptor.exists_check_eq_error field.name hnf
    exact ⟨.valueMismatch field.name expected found, .mismatch hg hnf,
      by simp only [valuesFor, hg, hk]⟩

/-- An error is about the first field that a record does not fit. -/
theorem exists_refuses_of_valuesFor {record : Record} {e : CodecError} : ∀ {fields : List Field},
    valuesFor record fields = .error e → ∃ before field after, fields = before ++ field :: after ∧
      (∀ f ∈ before, f.FitsIn record) ∧ field.Refuses record e
  | [], h => by cases h
  | field :: fields, h => by
    by_cases hf : field.FitsIn record
    · rw [valuesFor_cons_of_fitsIn hf] at h
      cases hv : valuesFor record fields with
      | ok values =>
        rw [hv] at h
        cases h
      | error e' =>
        rw [hv] at h
        cases h
        obtain ⟨before, other, after, rfl, hb, hr⟩ := exists_refuses_of_valuesFor hv
        refine ⟨field :: before, other, after, rfl, fun f hm => ?_, hr⟩
        rcases List.mem_cons.1 hm with rfl | hm
        · exact hf
        · exact hb f hm
    · obtain ⟨e', hr, hv⟩ := valuesFor_cons_of_not_fitsIn hf fields
      rw [hv] at h
      cases h
      exact ⟨[], field, fields, rfl, by simp, hr⟩

theorem valuesFor_eq_error_iff {definition : Definition} {record : Record} :
    (∃ e, valuesFor record definition.fields = .error e) ↔
      ∃ field ∈ definition.fields, ¬field.FitsIn record := by
  constructor
  · rintro ⟨e, h⟩
    obtain ⟨before, field, after, hs, -, hr⟩ := exists_refuses_of_valuesFor h
    exact ⟨field, hs ▸ List.mem_append_right before List.mem_cons_self, hr.not_fitsIn⟩
  · rintro ⟨field, hm, hn⟩
    cases hv : valuesFor record definition.fields with
    | error e => exact ⟨e, rfl⟩
    | ok values => exact absurd (fitsIn_of_valuesFor hv field hm) hn

variable (codec : Codec)

theorem encodeInto_eq_error_iff {buf : Bytes} {definition : Definition} {record : Record}
    {offset : Nat} {e : CodecError} :
    (codec.encodeInto buf definition record offset).2 = .error e ↔
      valuesFor record definition.fields = .error e := by
  rw [encodeInto]
  cases valuesFor record definition.fields <;> simp

/-- A refusal leaves the buffer as it was, and all ways to encode give it. -/
theorem encode_of_refused {definition : Definition} {record : Record} {e : CodecError}
    (h : valuesFor record definition.fields = .error e) (buf : Bytes) (offset : Nat) :
    codec.encodeInto buf definition record offset = (buf, .error e) ∧
      codec.encode buf definition record offset = .error e ∧
      codec.encodeToBytes definition record = .error e := by
  have hi : codec.encodeInto buf definition record offset = (buf, .error e) := by
    rw [encodeInto, h]
  refine ⟨hi, ?_, by rw [encodeToBytes, h]⟩
  rw [encode, hi]
  rfl

/-- A record is refused if and only if some field has no value of the right shape in it. The error
is about the first of these fields, and it is the same error for every codec, buffer and offset, in
place and into a buffer of its own. No byte is changed then. -/
theorem encodeInto_refusal (definition : Definition) (record : Record) :
    (∀ (codec : Codec) (buf : Bytes) (offset : Nat),
      (∃ e, (codec.encodeInto buf definition record offset).2 = .error e) ↔
        ∃ field ∈ definition.fields, ¬field.FitsIn record) ∧
    ∀ (codec : Codec) (buf : Bytes) (offset : Nat) (e : CodecError),
      (codec.encodeInto buf definition record offset).2 = .error e →
        (∃ before field after, definition.fields = before ++ field :: after ∧
          (∀ f ∈ before, f.FitsIn record) ∧ field.Refuses record e) ∧
        ∀ (codec : Codec) (buf : Bytes) (offset : Nat),
          codec.encodeInto buf definition record offset = (buf, .error e) ∧
            codec.encode buf definition record offset = .error e ∧
            codec.encodeToBytes definition record = .error e := by
  refine ⟨fun codec buf offset => ?_, fun codec buf offset e h => ?_⟩
  · simp only [codec.encodeInto_eq_error_iff]
    exact valuesFor_eq_error_iff
  · have hv := codec.encodeInto_eq_error_iff.1 h
    exact ⟨exists_refuses_of_valuesFor hv, fun codec buf offset =>
      codec.encode_of_refused hv buf offset⟩

/-- A missing value before one of the wrong shape, in a buffer that has room for no field. -/
theorem encodeInto_refusal_missing :
    Codec.encodeInto ⟨.big⟩ [9] (.ofList [("a", ⟨.int16, 1, none⟩), ("b", ⟨.char, 2, none⟩),
        ("c", ⟨.uint8, 2, none⟩)]) (.ofList [("c", .text "x"), ("a", .signed 5)]) 7
      = ([9], .error (.missingField "b")) ∧
    Codec.encodeToBytes ⟨.little⟩ (.ofList [("a", ⟨.int16, 1, none⟩), ("b", ⟨.char, 2, none⟩),
        ("c", ⟨.uint8, 2, none⟩)]) (.ofList [("c", .text "x"), ("a", .signed 5)])
      = .error (.missingField "b") := by
  obtain ⟨-, h⟩ := (encodeInto_refusal (.ofList [("a", ⟨.int16, 1, none⟩), ("b", ⟨.char, 2, none⟩),
    ("c", ⟨.uint8, 2, none⟩)]) (.ofList [("c", .text "x"), ("a", .signed 5)])).2
    ⟨.little⟩ [] 0 (.missingField "b") rfl
  exact ⟨(h ⟨.big⟩ [9] 7).1, (h ⟨.little⟩ [] 0).2.2⟩

/-- Neither walk does anything that is undefined: on every buffer and at every offset of 64 bits,
all tests of the guarded walks pass. -/
theorem guarded_eq_walks (definition : Definition) (record : Record) {buf : Bytes} {offset : Nat}
    (hb : buf.length < 2 ^ 64) (ho : offset < 2 ^ 64) :
    codec.decode? buf definition offset = some (codec.decode buf definition offset) ∧
      codec.encodeInto? buf definition record offset
        = some (codec.encodeInto buf definition record offset) :=
  ⟨codec.decode?_eq hb ho definition, codec.encodeInto?_eq hb ho definition record⟩

/-- A count of zero, a list of three-byte numbers, and a buffer that ends with the last field. -/
theorem guarded_eq_walks_exact :
    ([9, 1, 2, 3, 4, 5, 6, 7] : Bytes).length < 2 ^ 64 ∧ 1 < 2 ^ 64 ∧
    (∃ r, Codec.decode? ⟨.big⟩ [9, 1, 2, 3, 4, 5, 6, 7]
        (.ofList [("a", ⟨.int24, 2, none⟩), ("b", ⟨.uint8, 0, none⟩)]) 1 = some r ∧
      r.stop = 8 ∧ r.incomplete = false) ∧
    Codec.encodeInto? ⟨.big⟩ [9, 1, 2, 3, 4, 5, 6, 7]
        (.ofList [("a", ⟨.int24, 2, none⟩), ("b", ⟨.uint8, 0, none⟩)])
        (.ofList [("b", .unsigned 257), ("a", .list [.signed (-1), .signed 2])]) 1
      = some ([9, 255, 255, 255, 0, 0, 2, 1], .ok ⟨8, false⟩) := by
  have hb : ([9, 1, 2, 3, 4, 5, 6, 7] : Bytes).length < 2 ^ 64 := by decide
  have ho : 1 < 2 ^ 64 := by decide
  obtain ⟨hd, he⟩ := guarded_eq_walks ⟨.big⟩
    (.ofList [("a", ⟨.int24, 2, none⟩), ("b", ⟨.uint8, 0, none⟩)])
    (.ofList [("b", .unsigned 257), ("a", .list [.signed (-1), .signed 2])]) hb ho
  exact ⟨hb, ho, ⟨_, hd, rfl, rfl⟩, he.trans rfl⟩

end Codec

end BinaryLayout

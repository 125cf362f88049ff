import BinaryLayout.Proofs.Codec.Refusal
import BinaryLayout.Proofs.Codec.RoundTrip

/-!
# Writing what was read only in part

What a walk read before it was cut short fits the fields that it came past (`fitsIn_of_entries`), so
a check of the whole layout passes over these. The next field is the one at which the walk ended,
and it has no value. So the record is refused, everywhere, for just this field
(`encodeInto_truncated`).
-/

namespace BinaryLayout

namespace Codec

/-- The fields that a record fits are passed over. -/
theorem valuesFor_append_of_error {record : Record} {e : CodecError} {fields : List Field}
    (h : valuesFor record fields = .error e) : ∀ {before : List Field},
      (∀ f ∈ before, f.FitsIn record) → valuesFor record (before ++ fields) = .error e
  | [], _ => h
  | f :: before, hf => by
    rw [List.forall_mem_cons] at hf
    rw [List.cons_append, valuesFor_cons_of_fitsIn hf.1, valuesFor_append_of_error h hf.2]
    rfl

theorem valuesFor_cons_of_missing {record : Record} {field : Field}
    (h : record.get? field.name = none) (fields : List Field) :
    valuesFor record (field :: fields) = .error (.missingField field.name) := by
  simp only [valuesFor, h]

variable (codec : Codec)

theorem valuesFor_readEntries {before after : List Field} {field : Field}
    (hd : ((before ++ field :: after).map (·.name)).Nodup) (buf : Bytes) (cursor : Nat) :
    valuesFor (.ofList (codec.readEntries buf before cursor)) (before ++ field :: after)
      = .error (.missingField field.name) := by
  rw [List.map_append, List.map_cons, List.nodup_append] at hd
  obtain ⟨hb, -, hne⟩ := hd
  rw [← codec.names_readEntries buf before cursor] at hb hne
  refine valuesFor_append_of_error (valuesFor_cons_of_missing ?_ after) ?_
  · rw [NameMap.get?_ofList_eq_none_iff]
    exact fun hm => hne _ hm _ List.mem_cons_self rfl
  · exact codec.fitsIn_of_entries fun e hm => NameMap.get?_ofList_of_mem hb hm

/-- A layout that is read only in part ends at a field that does not fit into the buffer. To write
what was read, with any codec, into any buffer and at any offset, is refused for the missing value
of this field, and changes no byte. -/
theorem encodeInto_truncated {definition : Definition} (hd : definition.names.Nodup) {buf : Bytes}
    {offset : Nat} (h : (codec.decode buf definition offset).incomplete = true) :
    ∃ k field, definition.fields[k]? = some field ∧
      (codec.decode buf definition offset).stop = definition.position offset k ∧
      buf.length < definition.position offset k + field.byteLength ∧
      ∀ (other : Codec) (out : Bytes) (start : Nat),
        other.encodeInto out definition (codec.decode buf definition offset).data start
          = (out, .error (.missingField field.name)) := by
  rw [decode_eq, decide_eq_true_eq] at h
  have hf := List.getElem?_eq_getElem h
  refine ⟨_, _, hf, by rw [decode_eq], ?_, fun other out start => ?_⟩
  · rw [← Definition.position_succ hf]
    exact Field.lt_extent_take_fitting h
  · have hs := List.take_append_drop (Field.fitting buf.length definition.fields offset)
      definition.fields
    rw [List.drop_eq_getElem_cons h] at hs
    rw [Definition.names, ← hs] at hd
    have hv := codec.valuesFor_readEntries hd buf offset
    rw [hs] at hv
    rw [decode_eq]
    exact (other.encode_of_refused hv out start).1

/-- The buffer ends inside the third of four fields, and the destination has room for all. -/
theorem encodeInto_truncated_third :
    (Definition.ofList [("a", ⟨.int16, 1, none⟩), ("t", ⟨.char, 2, none⟩),
        ("x", ⟨.uint24, 2, some .little⟩), ("z", ⟨.uint8, 1, none⟩)]).names.Nodup ∧
      (Codec.decode ⟨.big⟩ [9, 255, 254, 65, 0, 1, 2, 3, 4, 5] (.ofList [("a", ⟨.int16, 1, none⟩),
        ("t", ⟨.char, 2, none⟩), ("x", ⟨.uint24, 2, some .little⟩), ("z", ⟨.uint8, 1, none⟩)])
        1).incomplete = true ∧
      Codec.encodeInto ⟨.little⟩ (List.replicate 20 7) (.ofList [("a", ⟨.int16, 1, none⟩),
          ("t", ⟨.char, 2, none⟩), ("x", ⟨.uint24, 2, some .little⟩), ("z", ⟨.uint8, 1, none⟩)])
        (Codec.decode ⟨.big⟩ [9, 255, 254, 65, 0, 1, 2, 3, 4, 5]
          (.ofList [("a", ⟨.int16, 1, none⟩), ("t", ⟨.char, 2, none⟩),
            ("x", ⟨.uint24, 2, some .little⟩), ("z", ⟨.uint8, 1, none⟩)]) 1).data 3
        = (List.replicate 20 7, .error (.missingField "x")) := by
  have hd : (Definition.ofList [("a", ⟨.int16, 1, none⟩), ("t", ⟨.char, 2, none⟩),
      ("x", ⟨.uint24, 2, some .little⟩), ("z", ⟨.uint8, 1, none⟩)]).names.Nodup := by decide
  have h : (Codec.decode ⟨.big⟩ [9, 255, 254, 65, 0, 1, 2, 3, 4, 5]
      (.ofList [("a", ⟨.int16, 1, none⟩), ("t", ⟨.char, 2, none⟩),
        ("x", ⟨.uint24, 2, some .little⟩), ("z", ⟨.uint8, 1, none⟩)]) 1).incomplete = true := rfl
  obtain ⟨k, field, hf, hs, -, he⟩ := encodeInto_truncated ⟨.big⟩ hd h
  have hx : field.name = "x" := by
    rcases k with _ | _ | _ | _ | k
    · exact absurd hs (by decide)
    · exact absurd hs (by decide)
    · cases hf
      rfl
    · exact absurd hs (by decide)
    · cases hf
  exact ⟨hd, h, hx ▸ he ⟨.little⟩ (List.replicate 20 7) 3⟩

end Codec

end BinaryLayout

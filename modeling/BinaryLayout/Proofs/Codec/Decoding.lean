import BinaryLayout.Proofs.Codec.Walk

/-!
# What decoding reads

A layout is read field by field as far as the buffer goes (`Reads`): the fields that are read are
the most that all end inside the buffer, a name that occurs among them more than once has the value
of the last field with it, and the walk is cut short exactly when fields are left. This holds at
every offset, also where the sums of 64 bits would overflow (`decode_reads`).
-/

namespace BinaryLayout

theorem exists_take_eq_append {fields : List Field} {i k : Nat} {field : Field} (hi : i < k)
    (h : fields[i]? = some field) : ∃ after, fields.take k = fields.take i ++ field :: after ∧
      ∀ later ∈ after, ∃ j, i < j ∧ j < k ∧ fields[j]? = some later := by
  have hk : (fields.take k)[i]? = some field := by rw [List.getElem?_take_of_lt hi, h]
  obtain ⟨hl, he⟩ := List.getElem?_eq_some_iff.1 hk
  refine ⟨(fields.take k).drop (i + 1), ?_, fun later hm => ?_⟩
  · conv => lhs; rw [← List.take_append_drop i (fields.take k)]
    rw [List.take_take, Nat.min_eq_left (by omega), List.drop_eq_getElem_cons hl, he]
  · obtain ⟨m, hm⟩ := List.mem_iff_getElem?.1 hm
    rw [List.getElem?_drop, List.getElem?_take] at hm
    split at hm
    · exact ⟨i + 1 + m, by omega, by omega, hm⟩
    · cases hm

namespace Codec

variable (codec : Codec)

/-- `r` is what the first `k` fields of a layout at `offset` read as, and `k` is the greatest number
of leading fields that all end inside the buffer. -/
structure Reads (buf : Bytes) (definition : Definition) (offset k : Nat) (r : Decoded) :
    Prop where
  isGreatest : IsGreatest {n | n ≤ definition.size ∧
    ∀ i, 1 ≤ i → i ≤ n → definition.position offset i ≤ buf.length} k
  stop_eq : r.stop = definition.position offset k
  incomplete_iff : r.incomplete = true ↔ k < definition.size
  names_eq : r.data.names = (definition.names.take k).eraseDups
  /-- The value under a name is read from the bytes of the last field with it. -/
  get?_eq : ∀ i field, i < k → definition.fields[i]? = some field →
    (∀ j later, i < j → j < k → definition.fields[j]? = some later → later.name ≠ field.name) →
    ∃ bytes, Bytes.slice? buf (definition.position offset i) (definition.position offset (i + 1))
        = some bytes ∧
      r.data.get? field.name
        = some (field.descriptor.read (codec.orderOf field.descriptor) bytes)

theorem names_decode (buf : Bytes) (definition : Definition) (offset : Nat) :
    (codec.decode buf definition offset).data.names
      = (definition.names.take
          (Field.fitting buf.length definition.fields offset)).eraseDups := by
  rw [decode_eq, NameMap.names_ofList, names_readEntries, Definition.names, List.map_take]

theorem get?_decode {buf : Bytes} {definition : Definition} {offset i : Nat} {field : Field}
    (hi : i < Field.fitting buf.length definition.fields offset)
    (hf : definition.fields[i]? = some field)
    (hl : ∀ j later, i < j → j < Field.fitting buf.length definition.fields offset →
      definition.fields[j]? = some later → later.name ≠ field.name) :
    (codec.decode buf definition offset).data.get? field.name
      = some (codec.valueAt buf field (definition.position offset i)) := by
  obtain ⟨after, hs, ha⟩ := exists_take_eq_append hi hf
  have hn : field.name ∉ (codec.readEntries buf after
      (definition.position offset i + field.byteLength)).map Prod.fst := by
    rw [names_readEntries]
    intro hm
    obtain ⟨later, hm, he⟩ := List.mem_map.1 hm
    obtain ⟨j, hij, hjk, hj⟩ := ha later hm
    exact hl j later hij hjk hj he
  rw [decode_eq, hs, readEntries_append]
  exact NameMap.get?_insertAll_of_last _ _ _ hn

theorem reads_decode (buf : Bytes) (definition : Definition) (offset : Nat) :
    codec.Reads buf definition offset (Field.fitting buf.length definition.fields offset)
      (codec.decode buf definition offset) := by
  have hg := Field.isGreatest_fitting buf.length definition.fields offset
  refine ⟨hg, by rw [decode_eq], by simp [decode_eq], codec.names_decode buf definition offset, ?_⟩
  intro i field hi hf hl
  have hp := Definition.position_succ hf offset
  have hle : definition.position offset i + field.byteLength ≤ buf.length := by
    rw [← hp]
    exact hg.1.2 (i + 1) (by omega) (by omega)
  refine ⟨_, ?_, codec.get?_decode hi hf hl⟩
  rw [hp, slice?_eq hle]

/-- At every 64-bit offset decoding gives an answer, of exactly the leading fields that end inside
the buffer. It is complete if and only if the layout is empty or ends inside the buffer, and the
comparison with the size of the layout at the end never makes it incomplete. -/
theorem decode_reads (definition : Definition) {buf : Bytes} {offset : Nat}
    (hb : buf.length < 2 ^ 64) (ho : offset < 2 ^ 64) :
    ∃ r k, codec.decode? buf definition offset = some r ∧
      codec.decode buf definition offset = r ∧
      codec.Reads buf definition offset k r ∧
      (r.incomplete = false ↔
        definition.fields = [] ∨ offset + definition.byteSize ≤ buf.length) ∧
      (codec.readFields buf definition.fields offset .empty).incomplete = r.incomplete := by
  refine ⟨_, _, codec.decode?_eq hb ho definition, rfl, codec.reads_decode buf definition offset,
    codec.decode_complete_iff buf definition offset, ?_⟩
  rw [decode_eq_readFields]

/-- A name that occurs twice, a buffer that ends inside the last field, and an offset next to the
end of the address space. -/
theorem decode_reads_cut :
    (∃ r k, Codec.decode? ⟨.big⟩ [9, 1, 2, 3, 65, 66, 5] (.ofList [("a", ⟨.uint8, 1, none⟩),
          ("b", ⟨.uint16, 1, some .little⟩), ("a", ⟨.char, 2, none⟩), ("c", ⟨.uint64, 1, none⟩)]) 1
        = some r ∧
      Codec.Reads ⟨.big⟩ [9, 1, 2, 3, 65, 66, 5] (.ofList [("a", ⟨.uint8, 1, none⟩),
          ("b", ⟨.uint16, 1, some .little⟩), ("a", ⟨.char, 2, none⟩), ("c", ⟨.uint64, 1, none⟩)]) 1
        k r) ∧
    ∃ r k, Codec.decode? ⟨.big⟩ [1, 2] (.ofList [("a", ⟨.uint16, 1, none⟩)]) (2 ^ 64 - 1)
        = some r ∧
      Codec.Reads ⟨.big⟩ [1, 2] (.ofList [("a", ⟨.uint16, 1, none⟩)]) (2 ^ 64 - 1) k r := by
  constructor
  · obtain ⟨r, k, hr, -, hk, -⟩ := decode_reads ⟨.big⟩ (.ofList [("a", ⟨.uint8, 1, none⟩),
      ("b", ⟨.uint16, 1, some .little⟩), ("a", ⟨.char, 2, none⟩), ("c", ⟨.uint64, 1, none⟩)])
      (show [9, 1, 2, 3, 65, 66, 5].length < 2 ^ 64 by decide) (show 1 < 2 ^ 64 by decide)
    exact ⟨r, k, hr, hk⟩
  · obtain ⟨r, k, hr, -, hk, -⟩ := decode_reads ⟨.big⟩ (.ofList [("a", ⟨.uint16, 1, none⟩)])
      (show [1, 2].length < 2 ^ 64 by decide) (show 2 ^ 64 - 1 < 2 ^ 64 by decide)
    exact ⟨r, k, hr, hk⟩

end Codec

end BinaryLayout

import BinaryLayout.Proofs.Codec.Walk

/-!
# Decoding one layout behind another

A walk over two sequences of fields is a walk over the second from where the walk over the first
ended, with the record that it filled, unless the first was cut short (`readFields_append`). A walk
that starts with a record merges into it what it would have read into the empty one
(`readFields_eq_merge`). So a layout that is appended to another is decoded on its own, behind the
other, and the two records are merged (`decode_append`).
-/

namespace BinaryLayout

namespace Codec

variable (codec : Codec)

theorem readFields_append (buf : Bytes) (others : List Field) :
    ∀ (fields : List Field) (cursor : Nat) (data : Record),
      codec.readFields buf (fields ++ others) cursor data
        = if (codec.readFields buf fields cursor data).incomplete
          then codec.readFields buf fields cursor data
          else codec.readFields buf others (codec.readFields buf fields cursor data).stop
            (codec.readFields buf fields cursor data).data
  | [], _, _ => rfl
  | field :: fields, cursor, data => by
    by_cases hle : cursor + field.byteLength ≤ buf.length
    · rw [List.cons_append, codec.readFields_cons_of_le hle, codec.readFields_cons_of_le hle]
      exact readFields_append buf others fields _ _
    · rw [List.cons_append, codec.readFields_cons_of_not_le hle,
        codec.readFields_cons_of_not_le hle, if_pos rfl]

/-- What is read does not depend on the record it is put into. -/
theorem readFields_eq_merge (buf : Bytes) (fields : List Field) (cursor : Nat) (data : Record) :
    codec.readFields buf fields cursor data
      = ⟨data.insertAll (codec.readFields buf fields cursor .empty).data.entries,
          (codec.readFields buf fields cursor .empty).stop,
          (codec.readFields buf fields cursor .empty).incomplete⟩ := by
  have h := fun record => codec.readFields_eq buf fields cursor record
  rw [h data, h .empty, ← NameMap.ofList, NameMap.insertAll_ofList]

/-- Decoding a layout with another appended to it. If the first part is cut short, this is all there
is; else the second part is decoded from where the first ended, and its entries are inserted behind
those of the first, one by one in order. -/
theorem decode_append (buf : Bytes) (first second : Definition) (offset : Nat) :
    codec.decode buf (first.append second) offset
      = let front := codec.decode buf first offset
        if front.incomplete then front
        else
          let back := codec.decode buf second front.stop
          ⟨front.data.insertAll back.data.entries, back.stop, back.incomplete⟩ := by
  simp only [decode_eq_readFields, Definition.append, readFields_append]
  split
  · rfl
  · exact codec.readFields_eq_merge buf second.fields _ _

end Codec

end BinaryLayout

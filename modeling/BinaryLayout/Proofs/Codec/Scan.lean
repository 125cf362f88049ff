import BinaryLayout.Proofs.Codec.Search
import BinaryLayout.Proofs.Codec.Walk

/-!
# Records behind markers

What is read behind a marker is a layout behind the first place from the offset on where the marker
stands (`decodeAfter_eq_some_iff`). A decoding walk ends neither in front of its offset nor behind
the end of the buffer (`stop_decode_bounds`), so a scan that reads on where its last record ended
gets forward by a marker with each record (`add_size_le_stop`), and is over after finitely many of
them (`exists_scans`).
-/

namespace BinaryLayout

namespace Codec

variable (codec : Codec) {buf : Bytes} {marker : Pattern} {definition : Definition} {offset : Nat}

/-- Reading behind a marker; the place behind it is a sum of 64 bits. -/
def decodeAfter? (buf : Bytes) (marker : Pattern) (definition : Definition) (offset : Nat) :
    Option (Option Decoded) := do
  match ← Bytes.seek? buf marker.bytes offset with
  | none => return none
  | some start => return some (← codec.decode? buf definition (← Word.add? start marker.size))

/-- The records of a scan from an offset on: each is read from where the one before ended, and
behind the last one there is no marker. -/
inductive Scans (buf : Bytes) (marker : Pattern) (definition : Definition) :
    Nat → List Decoded → Prop
  | nil {offset : Nat} : codec.decodeAfter buf marker definition offset = none →
    Scans buf marker definition offset []
  | cons {offset : Nat} {r : Decoded} {rs : List Decoded} :
    codec.decodeAfter buf marker definition offset = some r →
    Scans buf marker definition r.stop rs → Scans buf marker definition offset (r :: rs)

/-! ## One record -/

theorem stop_decode_bounds (definition : Definition) (h : offset ≤ buf.length) :
    offset ≤ (codec.decode buf definition offset).stop ∧
      (codec.decode buf definition offset).stop ≤ buf.length := by
  rw [decode_eq, Definition.position]
  refine ⟨Nat.le_add_right _ _, ?_⟩
  rcases Field.extent_fitting_le buf.length definition.fields offset with h0 | hle
  · simpa [h0] using h
  · exact hle

theorem decodeAfter_eq_some_iff {r : Decoded} :
    codec.decodeAfter buf marker definition offset = some r ↔
      marker.bytes ≠ [] ∧ ∃ start,
        IsLeast {i | offset ≤ i ∧ Bytes.OccursAt marker.bytes buf i} start ∧
          r = codec.decode buf definition (start + marker.size) := by
  rw [decodeAfter, Pattern.search, Option.map_eq_some_iff]
  constructor
  · rintro ⟨start, hs, rfl⟩
    obtain ⟨hn, ho, ha, hm⟩ := Bytes.find?_eq_some_iff.1 hs
    refine ⟨hn, start, ⟨⟨ho, ha⟩, fun i hi => ?_⟩, rfl⟩
    exact Nat.not_lt.1 fun hlt => hm i hi.1 hlt hi.2
  · rintro ⟨hn, start, ⟨⟨ho, ha⟩, hm⟩, rfl⟩
    refine ⟨start, Bytes.find?_eq_some_iff.2 ⟨hn, ho, ha, fun i hi hlt hoi => ?_⟩, rfl⟩
    exact Nat.not_le.2 hlt (hm ⟨hi, hoi⟩)

theorem decodeAfter_eq_none_iff :
    codec.decodeAfter buf marker definition offset = none ↔
      marker.bytes = [] ∨ ∀ i, offset ≤ i → ¬Bytes.OccursAt marker.bytes buf i := by
  rw [decodeAfter, Pattern.search, Option.map_eq_none_iff, Bytes.find?_eq_none_iff]

/-- Each record lies behind a whole marker. -/
theorem add_size_le_stop {r : Decoded}
    (h : codec.decodeAfter buf marker definition offset = some r) :
    0 < marker.size ∧ offset + marker.size ≤ r.stop ∧ r.stop ≤ buf.length := by
  obtain ⟨hn, start, ⟨⟨ho, ha⟩, -⟩, rfl⟩ := codec.decodeAfter_eq_some_iff.1 h
  obtain ⟨hl, hu⟩ := codec.stop_decode_bounds definition ha.1
  exact ⟨List.length_pos_iff.2 hn, (Nat.add_le_add_right ho _).trans hl, hu⟩

/-- Reading behind a marker uses nothing outside its domain. -/
theorem decodeAfter?_eq (hb : buf.length < 2 ^ 64) (marker : Pattern) (definition : Definition)
    (offset : Nat) : codec.decodeAfter? buf marker definition offset
      = some (codec.decodeAfter buf marker definition offset) := by
  rw [decodeAfter?, Bytes.seek?_eq hb, decodeAfter, Pattern.search]
  rcases hs : Bytes.find? buf marker.bytes offset with _ | start
  · rfl
  · obtain ⟨-, -, ha, -⟩ := Bytes.find?_eq_some_iff.1 hs
    have hlt : start + marker.size < 2 ^ 64 := Nat.lt_of_le_of_lt ha.1 hb
    simp only [Option.bind_eq_bind, Option.bind_some, Word.add?, if_pos hlt,
      codec.decode?_eq hb hlt definition]
    rfl

/-! ## A scan -/

theorem Scans.eq {codec : Codec} {rs others : List Decoded}
    (h : codec.Scans buf marker definition offset rs)
    (ho : codec.Scans buf marker definition offset others) : others = rs := by
  induction h generalizing others with
  | nil hn =>
    cases ho with
    | nil _ => rfl
    | cons hs _ => rw [hn] at hs; cases hs
  | cons hs _ ih =>
    cases ho with
    | nil hn => rw [hn] at hs; cases hs
    | cons hs' ht =>
      rw [hs] at hs'
      cases hs'
      rw [ih ht]

/-- Every record takes at least a marker from what is left of the buffer. -/
theorem Scans.length_mul_le {codec : Codec} {rs : List Decoded}
    (h : codec.Scans buf marker definition offset rs) :
    rs.length * marker.size ≤ buf.length - offset := by
  induction h with
  | nil _ => rw [List.length_nil, Nat.zero_mul]; exact Nat.zero_le _
  | cons hs _ ih =>
    obtain ⟨-, hl, hu⟩ := codec.add_size_le_stop hs
    rw [List.length_cons, Nat.succ_mul]
    omega

/-- The ends of the records stand in strictly increasing order behind the offset. -/
theorem Scans.pairwise_stop {codec : Codec} {rs : List Decoded}
    (h : codec.Scans buf marker definition offset rs) :
    (offset :: rs.map (·.stop)).Pairwise (· < ·) := by
  induction h with
  | nil _ => exact List.pairwise_singleton _ _
  | @cons offset r rs hs _ ih =>
    obtain ⟨hp, hl, -⟩ := codec.add_size_le_stop hs
    have hlt : offset < r.stop := by omega
    rw [List.map_cons, List.pairwise_cons]
    refine ⟨fun stop hm => ?_, ih⟩
    rcases List.mem_cons.1 hm with rfl | hm
    · exact hlt
    · exact hlt.trans (List.rel_of_pairwise_cons ih hm)

/-- The induction is on what is left of the buffer behind the offset. -/
theorem exists_scans (buf : Bytes) (marker : Pattern) (definition : Definition) (offset : Nat) :
    ∃ rs, codec.Scans buf marker definition offset rs := by
  induction hn : buf.length - offset using Nat.strong_induction_on generalizing offset with
  | _ n ih =>
    rcases hs : codec.decodeAfter buf marker definition offset with _ | r
    · exact ⟨[], .nil hs⟩
    · obtain ⟨hp, hl, hu⟩ := codec.add_size_le_stop hs
      obtain ⟨rs, ht⟩ := ih (buf.length - r.stop) (by omega) r.stop rfl
      exact ⟨r :: rs, .cons hs ht⟩

/-- Reading behind a marker gives an answer at every offset, and a record exactly if the marker has
a byte and stands somewhere from there on. The record is the layout read behind the first such
place; it ends inside the buffer and behind the marker, whatever of the layout there was room for.
So a scan that reads on where its records end moves forward with each of them, and one list of
records, finitely many, is all there is from an offset on. -/
theorem decodeAfter_scans (hb : buf.length < 2 ^ 64) (marker : Pattern) (definition : Definition)
    (offset : Nat) :
    ∃ answer, codec.decodeAfter? buf marker definition offset = some answer ∧
      codec.decodeAfter buf marker definition offset = answer ∧
      (answer.isSome = true ↔
        marker.bytes ≠ [] ∧ ∃ i, offset ≤ i ∧ Bytes.OccursAt marker.bytes buf i) ∧
      (∀ r, answer = some r → ∃ start,
        IsLeast {i | offset ≤ i ∧ Bytes.OccursAt marker.bytes buf i} start ∧
          r = codec.decode buf definition (start + marker.size) ∧
          start + marker.size ≤ r.stop ∧ r.stop ≤ buf.length ∧ offset < r.stop) ∧
      ∃ rs, codec.Scans buf marker definition offset rs ∧
        (∀ others, codec.Scans buf marker definition offset others → others = rs) ∧
        (offset :: rs.map (·.stop)).Pairwise (· < ·) ∧
        rs.length * marker.size ≤ buf.length - offset := by
  refine ⟨_, codec.decodeAfter?_eq hb marker definition offset, rfl, ?_, fun r hr => ?_, ?_⟩
  · rw [← Option.ne_none_iff_isSome, ne_eq, decodeAfter_eq_none_iff, not_or]
    simp only [not_forall, not_not, exists_prop]
  · obtain ⟨-, start, hs, rfl⟩ := codec.decodeAfter_eq_some_iff.1 hr
    obtain ⟨hl, hu⟩ := codec.stop_decode_bounds definition hs.1.2.1
    obtain ⟨hp, hf, -⟩ := codec.add_size_le_stop hr
    exact ⟨start, hs, rfl, hl, hu, by omega⟩
  · obtain ⟨rs, hs⟩ := codec.exists_scans buf marker definition offset
    exact ⟨rs, hs, fun others ho => hs.eq ho, hs.pairwise_stop, hs.length_mul_le⟩

/-- A marker that stands three times, the last time flush with the end of the buffer, where the
layout has no room any more; and an empty layout behind it. -/
theorem decodeAfter_scans_flush :
    (∃ r start, Codec.decodeAfter? ⟨.little⟩ [7, 7, 1, 0, 7, 7, 2, 0, 7, 7] ⟨[7, 7]⟩
          (.ofList [("n", ⟨.uint16, 1, none⟩)]) 5 = some (some r) ∧
        IsLeast {i | 5 ≤ i ∧ Bytes.OccursAt [7, 7] [7, 7, 1, 0, 7, 7, 2, 0, 7, 7] i} start ∧
        start + 2 ≤ r.stop ∧ r.stop ≤ 10 ∧ 5 < r.stop) ∧
      (∃ rs, Codec.Scans ⟨.little⟩ [7, 7, 1, 0, 7, 7, 2, 0, 7, 7] ⟨[7, 7]⟩
          (.ofList [("n", ⟨.uint16, 1, none⟩)]) 0 rs ∧
        (0 :: rs.map (·.stop)).Pairwise (· < ·) ∧ rs.length * 2 ≤ 10) ∧
      ∃ r, Codec.decodeAfter? ⟨.big⟩ [1, 7] ⟨[7]⟩ .empty 0 = some (some r) ∧ r.stop ≤ 2 := by
  have hb : ([7, 7, 1, 0, 7, 7, 2, 0, 7, 7] : Bytes).length < 2 ^ 64 := by decide
  have hb' : ([1, 7] : Bytes).length < 2 ^ 64 := by decide
  obtain ⟨near, hn, hna, -, hr, -⟩ := decodeAfter_scans ⟨.little⟩ hb ⟨[7, 7]⟩
    (.ofList [("n", ⟨.uint16, 1, none⟩)]) 5
  obtain ⟨-, -, -, -, -, rs, hs, -, hp, hl⟩ := decodeAfter_scans ⟨.little⟩ hb ⟨[7, 7]⟩
    (.ofList [("n", ⟨.uint16, 1, none⟩)]) 0
  obtain ⟨last, hla, hlast, -, he, -⟩ := decodeAfter_scans ⟨.big⟩ hb' ⟨[7]⟩ .empty 0
  have hna : near = some ⟨.empty, 10, true⟩ := hna.symm.trans rfl
  have hlast : last = some ⟨.empty, 2, false⟩ := hlast.symm.trans rfl
  refine ⟨?_, ⟨rs, hs, hp, hl⟩, ?_⟩
  · obtain ⟨start, hleast, -, hlow, hupp, hfwd⟩ := hr _ hna
    exact ⟨_, start, hna ▸ hn, hleast, hlow, hupp, hfwd⟩
  · obtain ⟨-, -, -, -, hupp, -⟩ := he _ hlast
    exact ⟨_, hlast ▸ hla, hupp⟩

end Codec

end BinaryLayout

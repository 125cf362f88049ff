import BinaryLayout.Proofs.Codec.Number
import BinaryLayout.Proofs.Floating.Halfway

/-!
# Numbers in fields of singles

A single keeps its bits on the way through a field of doubles: the double is the same number with
the same sign, and a field of singles makes the single of it again (`single_through_float64`).

An integer is made a double before it is made a single. Both roundings are to the nearest number,
but together they are not always: where the double is halfway between two singles the second
rounding does not know any more on which side of it the integer was (`integer_in_float32`). The
first integer after `2 ^ 53 + 2 ^ 29` is stored as a single that is not the nearest one
(`integer_in_float32_misses`).
-/

namespace BinaryLayout

namespace Value

theorem asSingle_of_integer? {v : Value} {z : Int} (h : v.integer? = some z) :
    v.asSingle = (Floating.ofInt z : Double).convert := by
  rw [← asDouble_of_integer? h]
  cases v <;> first | rfl | cases h

end Value

namespace Codec

variable (codec : Codec)

/-- A field of singles treats a number like its single. -/
theorem stores_asSingle {v : Value} (hv : v.isNumeric = true) :
    codec.Stores .float32 v v.asSingle.bits :=
  codec.stores_bits hv rfl rfl

theorem returns_asSingle {v : Value} (hv : v.isNumeric = true) :
    codec.Returns .float32 v (.single v.asSingle) := by
  have hn : Scalar.IsNative .float32 (.single v.asSingle) := rfl
  exact codec.returns_of_read_write hv fun order => Scalar.read_write order hn

/-! ## Singles in fields of doubles -/

/-- A field of doubles gives a single back as a double that denotes the same with the same sign, and
a field of singles gives the bits of the single back from this double. -/
theorem single_through_float64 {bits : Nat} (hb : bits < 2 ^ 32)
    (hn : Format.binary32.datum bits ≠ .nan) :
    ∃ x : Double, Format.binary64.datum x.bits = Format.binary32.datum bits ∧
      Format.binary64.signField x.bits = Format.binary32.signField bits ∧
      ∀ codec : Codec, codec.Returns .float64 (.single (.ofBits bits)) (.double x) ∧
        ∃ y : Single, y.bits = bits ∧ codec.Returns .float32 (.double x) (.single y) := by
  have hy : (Floating.ofBits bits : Single).bits = bits := Floating.bits_ofBits hb
  have hnan : ¬(Floating.ofBits bits : Single).isNaN = true := fun h => by
    have hd := Floating.datum_of_isNaN h
    rw [hy] at hd
    exact hn hd
  have hback := Floating.convert_convert Format.widens_binary64 hnan
  refine ⟨(Floating.ofBits bits : Single).convert, ?_, ?_, fun codec =>
    ⟨codec.returns_asDouble rfl, _, hy, ?_⟩⟩
  · have hd := Floating.datum_convert Format.widens_binary64 (by decide) (by decide) (by decide)
      (Floating.ofBits bits : Single)
    rwa [hy] at hd
  · have hs := Floating.negative_convert (g := .binary64) (Floating.ofBits bits : Single)
    rwa [← Floating.signField_bits, ← Floating.signField_bits, hy] at hs
  · have hr := codec.returns_asSingle (v := .double (Floating.ofBits bits : Single).convert) rfl
    have ha : (Value.double (Floating.ofBits bits : Single).convert).asSingle = .ofBits bits :=
      hback
    rwa [ha] at hr

/-- The negative single next to zero, from a big-endian field of doubles behind another field into
a little-endian field of singles. -/
theorem single_through_float64_subnormal :
    ∃ x : Double, Format.binary64.datum x.bits = .number (-1 / 2 ^ 149) ∧
      Format.binary64.signField x.bits = true ∧
      (∃ out p, Codec.encodeInto ⟨.little⟩ [9, 9, 9, 9, 9, 9, 9, 9, 9, 9, 9]
          (.ofList [("a", ⟨.uint8, 1, none⟩), ("x", ⟨.float64, 1, some .big⟩)])
          (.ofList [("x", .single (.ofBits 0x80000001)), ("a", .unsigned 7)]) 1 = (out, .ok p) ∧
        (Codec.decode ⟨.little⟩ out
          (.ofList [("a", ⟨.uint8, 1, none⟩), ("x", ⟨.float64, 1, some .big⟩)]) 1).data.get? "x"
            = some (.double x)) ∧
      ∃ out p y, Codec.encodeInto ⟨.little⟩ [9, 9, 9, 9, 9] (.ofList [("x", ⟨.float32, 1, none⟩)])
          (.ofList [("x", .double x)]) 1 = (out, .ok p) ∧
        (Codec.decode ⟨.little⟩ out (.ofList [("x", ⟨.float32, 1, none⟩)]) 1).data.get? "x"
            = some (.single y) ∧ y.bits = 0x80000001 := by
  have hd : Format.binary32.datum 0x80000001 = .number (-1 / 2 ^ 149) := by decide +kernel
  have hlast {α : Type} {fields : List α} {n : Nat} (hn : fields.length = n + 1) (j : Nat) (a : α)
      (hj : n < j) : fields[j]? ≠ some a := by
    rw [List.getElem?_eq_none (by omega)]
    exact (Option.some_ne_none a).symm
  obtain ⟨x, hx, hs, hcodec⟩ := single_through_float64 (by decide : 0x80000001 < 2 ^ 32)
    (by rw [hd]; exact Datum.noConfusion)
  obtain ⟨hdouble, y, hy, hsingle⟩ := hcodec ⟨.little⟩
  obtain ⟨out, p, found, he, hg, hf⟩ := hdouble
    (.ofList [("a", ⟨.uint8, 1, none⟩), ("x", ⟨.float64, 1, some .big⟩)])
    (.ofList [("x", .single (.ofBits 0x80000001)), ("a", .unsigned 7)])
    [9, 9, 9, 9, 9, 9, 9, 9, 9, 9, 9] 1 1 0 ⟨"x", ⟨.float64, 1, some .big⟩⟩
    ⟨⟨_, rfl⟩, rfl, ⟨_, rfl, rfl⟩, by decide⟩ rfl
    fun j later hj hl => absurd hl (hlast rfl j later hj)
  obtain rfl : found = .double x := Option.some.inj hf
  obtain ⟨out', p', found', he', hg', hf'⟩ := hsingle (.ofList [("x", ⟨.float32, 1, none⟩)])
    (.ofList [("x", .double x)]) [9, 9, 9, 9, 9] 1 0 0 ⟨"x", ⟨.float32, 1, none⟩⟩
    ⟨⟨_, rfl⟩, rfl, ⟨_, rfl, rfl⟩, by decide⟩ rfl
    fun j later hj hl => absurd hl (hlast rfl j later hj)
  obtain rfl : found' = .single y := Option.some.inj hf'
  exact ⟨x, hx.trans hd, hs.trans (by decide +kernel), ⟨out, p, he, hg⟩, out', p', y, he', hg', hy⟩

/-! ## Integers in fields of singles -/

theorem round_lt_infinity_of_natAbs_lt {z : Int} (h : z.natAbs < 2 ^ 64) :
    Format.binary32.round z.natAbs 1 < Format.binary32.infinity := by
  have ht : Format.binary32.round (2 ^ 64) 1 < Format.binary32.infinity := by decide +kernel
  exact (Format.round_mono _ Nat.one_pos Nat.one_pos (Nat.mul_le_mul_right 1 h.le)).trans_lt ht

theorem round_steps_round_lt {z : Int} (h : z.natAbs < 2 ^ 64) :
    Format.binary32.round (Format.binary64.steps (Format.binary64.round z.natAbs 1))
      Format.binary64.unit < Format.binary32.infinity := by
  have ht : Format.binary32.round (Format.binary64.steps (Format.binary64.round (2 ^ 64) 1))
      Format.binary64.unit < Format.binary32.infinity := by decide +kernel
  have hr := Format.round_mono .binary64 Nat.one_pos Nat.one_pos (Nat.mul_le_mul_right 1 h.le)
  exact (Format.round_mono _ (Format.unit_pos _) (Format.unit_pos _)
    (Nat.mul_le_mul_right _ (Format.steps_mono _ hr))).trans_lt ht

/-- A field of singles stores the single that is nearest to the double that is nearest to an
integer, and gives it back. It is the nearest one to the integer, which is what rounding only once
gives, unless the double is a tie away from the integer; so up to 53 bits it always is. -/
theorem integer_in_float32 {v : Value} {z : Int} (h : v.integer? = some z) :
    ∃ (d : Double) (q : Rat) (s : Single),
      d.IsNearest z ∧ Format.binary64.datum d.bits = .number q ∧ s.IsNearest q ∧
      (∀ order, Scalar.write? .float32 order 4 v
        = some (Bytes.writeUInt order 4 (.ofNat s.bits))) ∧
      (∀ codec : Codec, codec.Stores .float32 v s.bits ∧ codec.Returns .float32 v (.single s)) ∧
      (Floating.ofInt z : Single).IsNearest z ∧
      (s = .ofInt z ↔ ¬Format.binary32.TieAway q z) ∧
      (s.IsNearest z ↔ ¬Format.binary32.TieAway q z) ∧
      (|z| ≤ 2 ^ 53 → s.IsNearest z) := by
  have hv := Value.isNumeric_of_integer? h
  have hz := Value.natAbs_lt_of_integer? h
  have hs := Value.asSingle_of_integer? h
  have hd := round_lt_of_natAbs_lt hz
  have ho := round_lt_infinity_of_natAbs_lt hz
  have ht := round_steps_round_lt hz
  have heq := Floating.convert_ofRatio_eq_iff (decide (z < 0)) Format.refines_binary64 (by decide)
    (by decide) Nat.one_pos hd ht ho
  have hiff := Floating.isNearest_convert_iff (decide (z < 0)) Format.refines_binary64 (by decide)
    (by decide) Nat.one_pos hd ht ho
  rw [Floating.sign_mul_natAbs] at heq hiff
  refine ⟨.ofInt z, (Floating.ofInt z : Double).toRat, v.asSingle, ?_, ?_, ?_, fun order => ?_,
    fun codec => ⟨codec.stores_asSingle hv, codec.returns_asSingle hv⟩, ?_, hs ▸ heq, hs ▸ hiff,
    fun h53 => ?_⟩
  · exact Floating.isNearest_ofInt (by decide) (by decide) hd
  · exact Floating.datum_of_isFinite (by decide) (Floating.isFinite_ofRatio _ hd)
  · rw [hs]
    exact Floating.isNearest_convert _ (by decide) (by decide) hd ht
  · exact Scalar.write?_eq order v rfl
  · exact Floating.isNearest_ofInt (by decide) (by decide) ho
  · have hq := ((Floating.datum_eq_number_iff (by decide)).1 (datum_ofInt h53)).2
    rw [hs]
    refine hiff.2 ?_
    show ¬Format.binary32.TieAway (Floating.ofInt z : Double).toRat z
    rw [hq]
    exact Format.not_tieAway_self _

/-- An integer whose double is a tie, as an item of a repeated field: it is below the tie, and the
even single above the tie is stored. -/
theorem integer_in_float32_item :
    ∃ (q : Rat) (s : Single), s.IsNearest q ∧
      (∃ out p bytes, Codec.encodeInto ⟨.big⟩ [9, 9, 9, 9, 9, 9, 9, 9, 9, 9]
          (.ofList [("a", ⟨.uint8, 1, none⟩), ("n", ⟨.float32, 2, none⟩)])
          (.ofList [("n", .list [.signed 4, .signed (-1152921573326323713)]),
            ("a", .unsigned 7)]) 1 = (out, .ok p) ∧
        Bytes.slice? out 6 10 = some bytes ∧ Bytes.value bytes.reverse = s.bits) ∧
      s.bits = 0xDD800000 ∧
      (Floating.ofInt (-1152921573326323713) : Single).bits = 0xDD800001 ∧
      Format.binary32.TieAway q (-1152921573326323713 : Int) ∧
      ¬s.IsNearest (-1152921573326323713 : Int) := by
  obtain ⟨d, q, s, -, -, hs, hwrite, hcodec, -, heq, hiff, -⟩ :=
    integer_in_float32 (v := .signed (-1152921573326323713)) rfl
  have hstored := (hcodec ⟨.big⟩).1
    (.ofList [("a", ⟨.uint8, 1, none⟩), ("n", ⟨.float32, 2, none⟩)])
    (.ofList [("n", .list [.signed 4, .signed (-1152921573326323713)]), ("a", .unsigned 7)])
    [9, 9, 9, 9, 9, 9, 9, 9, 9, 9] 1 1 1 ⟨"n", ⟨.float32, 2, none⟩⟩
    ⟨⟨_, rfl⟩, rfl, ⟨_, rfl, rfl⟩, by decide⟩ rfl
  have hw : Scalar.write? .float32 .little 4 (.signed (-1152921573326323713))
      = some [0, 0, 0x80, 0xDD] := by decide +kernel
  have hb := Scalar.ofBits_readUInt .little (w := 4) (by decide) rfl s
  rw [← Option.some.inj (hw.symm.trans (hwrite .little))] at hb
  have hz : (Floating.ofInt (-1152921573326323713) : Single).bits = 0xDD800001 := by decide +kernel
  have hbits : s.bits = 0xDD800000 := by
    rw [← hb]
    decide +kernel
  have htie : Format.binary32.TieAway q (-1152921573326323713 : Int) := by
    by_contra hnot
    have h0 := congrArg Floating.bits (heq.2 hnot)
    rw [hbits] at h0
    exact absurd (h0.trans hz) (by decide)
  exact ⟨q, s, hs, hstored, hbits, hz, htie, fun hn => hiff.1 hn htie⟩

/-- Behind the tie at `2 ^ 53 + 2 ^ 29` the even single in front of it is stored, which is not the
nearest one. -/
theorem integer_in_float32_misses :
    Scalar.write? .float32 .little 4 (.unsigned 9007199791611905) = some [0, 0, 0, 0x5A] ∧
      (∀ s : Single, Bytes.writeUInt .little 4 (.ofNat s.bits) = [0, 0, 0, 0x5A] →
        ¬s.IsNearest (9007199791611905 : Int)) ∧
      ∃ t : Single, Bytes.writeUInt .little 4 (.ofNat t.bits) = [1, 0, 0, 0x5A] ∧
        t.IsNearest (9007199791611905 : Int) := by
  have ht : Format.binary32.datum (Floating.ofInt 9007199791611905 : Single).bits
      = .number 9007200328482816 := by decide +kernel
  refine ⟨by decide +kernel, fun s hs => ?_, .ofInt 9007199791611905, by decide +kernel,
    Floating.isNearest_ofInt (by decide) (by decide) (by decide +kernel)⟩
  rintro ⟨r, hr, hnear⟩
  have hb := Scalar.ofBits_readUInt .little (w := 4) (by decide) rfl s
  rw [hs] at hb
  have hd : Format.binary32.datum s.bits = .number 9007199254740992 := by
    rw [← hb]
    decide +kernel
  obtain rfl : 9007199254740992 = r := Datum.number.inj (hd.symm.trans hr)
  have hle := (hnear _ _ ht).1
  norm_num [abs_le] at hle

end Codec

end BinaryLayout

import BinaryLayout.Proofs.Floating.Nearest
import Mathlib.Data.Rat.Floor

/-!
# Conversions between numbers

A format widens into another if all its numbers are numbers of the other one. Converting to the
wider format is then exact, also for infinities and for what is no number (`datum_convert`), and
converting back gives every number its own bits again (`convert_convert`).

The 64-bit pattern of a number is that of its whole part, toward zero and clamped to what one of
the two integer types can hold (`toNat_toWord`). It depends on what the bits denote and not on
their format.
-/

namespace BinaryLayout

namespace Datum

/-- The whole part of a number, toward zero. -/
def truncated (q : Rat) : Int := if q < 0 then ⌈q⌉ else ⌊q⌋

/-- The two's complement pattern of the whole part, clamped to the least signed and the greatest
unsigned integer; zero for what is no number. -/
def word : Datum → Nat
  | .nan => 0
  | .infinity negative => if negative then 2 ^ 63 else 2 ^ 64 - 1
  | .number q => (max (-2 ^ 63) (min (truncated q) (2 ^ 64 - 1)) % 2 ^ 64).toNat

theorem truncated_sign_mul (negative : Bool) (m n : Nat) :
    truncated ((if negative then -1 else 1) * ((m : Rat) / n))
      = if negative then -((m / n : Nat) : Int) else (m / n : Nat) := by
  have hq : 0 ≤ (m : Rat) / n := div_nonneg (Nat.cast_nonneg _) (Nat.cast_nonneg _)
  have hm : ⌊(m : Rat) / n⌋ = ((m / n : Nat) : Int) := Rat.floor_natCast_div_natCast m n
  cases negative
  · rw [if_neg Bool.false_ne_true, if_neg Bool.false_ne_true, one_mul, truncated,
      if_neg hq.not_gt, hm]
  · rw [if_pos rfl, if_pos rfl, neg_one_mul, truncated]
    split
    · rw [Int.ceil_neg, hm]
    · rename_i hn
      have h0 : (m : Rat) / n = 0 := hq.antisymm' (neg_nonneg.1 (not_lt.1 hn))
      rw [h0, Int.floor_zero] at hm
      rw [h0, neg_zero, Int.floor_zero, ← hm, neg_zero]

/-- An integer that is neither too small nor too great is its own whole part. -/
theorem word_intCast {z : Int} (hl : -2 ^ 63 ≤ z) (hu : z < 2 ^ 64) :
    (number z).word = (z % 2 ^ 64).toNat := by
  have ht : truncated z = z := by
    rw [truncated, Int.ceil_intCast, Int.floor_intCast, ite_self]
  rw [word, ht]
  omega

end Datum

namespace Format

/-- All numbers of `f` are numbers of `g`: there is room for the fractions, one step of `f` is far
enough above the least one of `g`, and no number of `f` is beyond the greatest one. -/
structure Widens (f g : Format) : Prop where
  fractionBits_le : f.fractionBits ≤ g.fractionBits
  octaves : ∃ j, g.fractionBits ≤ j ∧ g.unit = f.unit * 2 ^ j
  round_lt : g.round (f.steps f.infinity) f.unit < g.infinity

theorem widens_binary64 : Widens .binary32 .binary64 where
  fractionBits_le := by decide
  octaves := ⟨925, by decide, by decide +kernel⟩
  round_lt := by decide +kernel

end Format

namespace Floating

variable {f g : Format}

theorem ext {x y : Floating f} (hn : x.negative = y.negative) (hc : x.code = y.code) : x = y := by
  cases x
  cases y
  simp only [mk.injEq]
  exact ⟨hn, hc⟩

/-! ## Widening -/

theorem isNaN_convert (hg : 0 < g.fractionBits) {x : Floating f} (h : x.isNaN = true) :
    (x.convert : Floating g).isNaN = true := by
  have hq : 0 < g.quietBit := Nat.two_pow_pos _
  have hl : x.code % 2 ^ f.fractionBits * 2 ^ g.fractionBits / 2 ^ f.fractionBits
      < 2 ^ g.fractionBits :=
    Nat.div_lt_of_lt_mul (Nat.mul_lt_mul_of_pos_right
      (Nat.mod_lt _ (Nat.two_pow_pos _)) (Nat.two_pow_pos _))
  have hb : g.quietBit < 2 ^ g.fractionBits :=
    Nat.pow_lt_pow_right (by decide) (Nat.sub_one_lt hg.ne')
  have hp := Nat.or_lt_two_pow hl hb
  have hr := hq.trans_le (Nat.right_le_or (n := x.code % 2 ^ f.fractionBits * 2 ^ g.fractionBits
    / 2 ^ f.fractionBits) (m := g.quietBit))
  have hw := g.infinity_add
  rw [convert, if_pos h, isNaN, decide_eq_true_eq, ofCode]
  dsimp only
  rw [Nat.mod_eq_of_lt (by omega)]
  omega

theorem negative_convert (x : Floating f) : (x.convert : Floating g).negative = x.negative := by
  rw [convert]
  split_ifs <;> rfl

theorem isInfinite_convert {x : Floating f} (h : x.isInfinite = true) :
    (x.convert : Floating g).isInfinite = true := by
  rw [convert, if_neg (not_isNaN_of_isInfinite h), if_pos h, isInfinite, decide_eq_true_eq]
  exact Nat.mod_eq_of_lt g.infinity_lt

theorem convert_of_isFinite {x : Floating f} (h : x.isFinite = true) :
    (x.convert : Floating g) = ofRatio x.negative (f.steps x.code) f.unit := by
  have hi : ¬x.isInfinite = true := by
    simp only [isFinite, isInfinite, decide_eq_true_eq] at h ⊢
    exact h.ne
  rw [convert, if_neg (not_isNaN_of_isFinite h), if_neg hi]

theorem mantissa_lt (x : Floating f) : f.mantissa x.bits < 2 ^ (f.fractionBits + 1) := by
  have hr := Nat.mod_lt x.code (Nat.two_pow_pos f.fractionBits)
  rw [Format.mantissa, fractionField_bits, Nat.pow_succ]
  split <;> omega

variable (hw : f.Widens g)
include hw

theorem round_lt_of_widens {x : Floating f} (h : x.isFinite = true) :
    g.round (f.steps x.code) f.unit < g.infinity := by
  rw [isFinite, decide_eq_true_eq] at h
  exact (g.round_mono f.unit_pos f.unit_pos
    (Nat.mul_le_mul_right _ (f.steps_mono h.le))).trans_lt hw.round_lt

/-- The code in the wider format is that of the same number. -/
theorem steps_convert {x : Floating f} (h : x.isFinite = true) :
    g.steps (x.convert : Floating g).code * f.unit = f.steps x.code * g.unit := by
  obtain ⟨j, hj, hu⟩ := hw.octaves
  -- the same significand, in octaves above those that the wider format adds below
  obtain ⟨code, hc⟩ := g.exists_steps_eq (x.mantissa_lt.le.trans
      (Nat.pow_le_pow_right (by decide) (Nat.succ_le_succ hw.fractionBits_le)))
    (Nat.le_add_left_of_le hj : g.fractionBits ≤ max (f.exponentField x.bits) 1 - 1 + j)
  have hs : g.steps code * f.unit = f.steps x.code * g.unit := by
    rw [hc, hu, x.steps_code, Nat.pow_add, Nat.mul_assoc, Nat.mul_assoc, Nat.mul_assoc,
      Nat.mul_comm f.unit]
  have hr := round_lt_of_widens hw h
  rw [Format.round_eq_of_steps f.unit_pos hs, min_lt_iff] at hr
  rw [convert_of_isFinite h, code_ofRatio, Format.round_eq_of_steps f.unit_pos hs,
    min_eq_left (hr.resolve_right (Nat.lt_irrefl _)).le, hs]

theorem toRat_convert {x : Floating f} (h : x.isFinite = true) :
    (x.convert : Floating g).toRat = x.toRat := by
  have hs := steps_convert hw h
  rw [toRat, toRat, negative_convert]
  congr 1
  rw [div_eq_div_iff (Nat.cast_ne_zero.2 g.unit_pos.ne') (Nat.cast_ne_zero.2 f.unit_pos.ne')]
  exact_mod_cast hs

theorem isFinite_convert {x : Floating f} (h : x.isFinite = true) :
    (x.convert : Floating g).isFinite = true := by
  rw [convert_of_isFinite h]
  exact isFinite_ofRatio _ (round_lt_of_widens hw h)

/-- Converting to a format that is wider keeps what is denoted. -/
theorem datum_convert (he : 2 ≤ f.exponentBits) (hge : 2 ≤ g.exponentBits)
    (hg : 0 < g.fractionBits) (x : Floating f) :
    g.datum (x.convert : Floating g).bits = f.datum x.bits := by
  rcases x.isFinite_or with h | h | h
  · rw [datum_of_isFinite hge (isFinite_convert hw h), datum_of_isFinite he h, toRat_convert hw h]
  · rw [datum_of_isInfinite (isInfinite_convert h), datum_of_isInfinite h, negative_convert]
  · rw [datum_of_isNaN (isNaN_convert hg h), datum_of_isNaN h]

/-- A number is the same again after it was converted to a wider format and back. -/
theorem convert_convert {x : Floating f} (h : ¬x.isNaN = true) :
    ((x.convert : Floating g).convert : Floating f) = x := by
  refine ext ((negative_convert _).trans (negative_convert x)) ?_
  rcases x.isFinite_or with hx | hx | hx
  · rw [convert_of_isFinite (isFinite_convert hw hx), code_ofRatio,
      Format.round_eq_of_steps g.unit_pos (steps_convert hw hx).symm]
    rw [isFinite, decide_eq_true_eq] at hx
    exact min_eq_left hx.le
  · have hi := isInfinite_convert (g := f) (isInfinite_convert (g := g) hx)
    rw [isInfinite, decide_eq_true_eq] at hi hx
    rw [hi, hx]
  · exact absurd hx h

omit hw

/-! ## To a pattern of 64 bits -/

theorem toNat_toWord_of_not_isNaN {x : Floating f} (h : ¬x.isNaN = true) :
    x.toWord.toNat = if x.negative then (2 ^ 64 - min x.truncate (2 ^ 63)) % 2 ^ 64
      else min x.truncate (2 ^ 64 - 1) := by
  have hs : UInt64.size = 2 ^ 64 := rfl
  rw [toWord, if_neg h]
  cases x.negative
  · rw [if_neg Bool.false_ne_true, if_neg Bool.false_ne_true, UInt64.toNat_ofNat']
    omega
  · rw [if_pos rfl, if_pos rfl, UInt64.toNat_neg, UInt64.toNat_ofNat', hs]
    omega

/-- The pattern of what the bits denote. -/
theorem toNat_toWord (he : 2 ≤ f.exponentBits) (hu : 2 ^ 64 ≤ f.steps f.infinity / f.unit)
    (x : Floating f) : x.toWord.toNat = (f.datum x.bits).word := by
  rcases x.isFinite_or with h | h | h
  · rw [datum_of_isFinite he h, toNat_toWord_of_not_isNaN (not_isNaN_of_isFinite h), Datum.word,
      toRat, Datum.truncated_sign_mul, truncate]
    generalize f.steps x.code / f.unit = whole
    split <;> omega
  · have ht : 2 ^ 64 ≤ x.truncate := by
      rw [isInfinite, decide_eq_true_eq] at h
      rwa [truncate, h]
    rw [datum_of_isInfinite h, toNat_toWord_of_not_isNaN (not_isNaN_of_isInfinite h), Datum.word]
    split <;> omega
  · rw [datum_of_isNaN h, Datum.word, toWord, if_pos h]
    rfl

end Floating

end BinaryLayout

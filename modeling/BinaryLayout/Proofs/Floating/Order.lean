import BinaryLayout.Floating.Basic
import Mathlib.Algebra.Order.Field.Rat
import Mathlib.Algebra.Order.Field.Basic

/-!
# Rounding keeps the order

Codes are ordered as the numbers they stand for (`steps_strictMono`), and of two quotients the
greater is never rounded to a smaller code (`round_mono`): in one octave the rests decide
(`nearest_mono`), and between two octaves stands the code where the upper one starts. So a quotient
of at most one is rounded to at most one, also when both its terms were rounded before
(`inUnit_div_ofNat`).
-/

namespace BinaryLayout

namespace Format

/-! ## Whole numbers near a quotient -/

theorem div_mono {a b c d : Nat} (hb : 0 < b) (hd : 0 < d) (h : a * d ≤ c * b) :
    a / b ≤ c / d := by
  rw [Nat.le_div_iff_mul_le hd]
  refine Nat.le_of_mul_le_mul_right ?_ hb
  calc a / b * d * b = a / b * b * d := Nat.mul_right_comm _ _ _
    _ ≤ a * d := Nat.mul_le_mul_right d (Nat.div_mul_le_self a b)
    _ ≤ c * b := h

theorem div_le_nearest (num den : Nat) : num / den ≤ nearest num den := by
  simp only [nearest]
  split
  · exact Nat.le_refl _
  · split <;> omega

theorem nearest_le_div (num den : Nat) : nearest num den ≤ num / den + 1 := by
  simp only [nearest]
  split
  · omega
  · split <;> omega

/-- With equal whole parts the rests decide. -/
theorem nearest_mono {a b c d : Nat} (hb : 0 < b) (hd : 0 < d) (h : a * d ≤ c * b) :
    nearest a b ≤ nearest c d := by
  rcases Nat.lt_or_eq_of_le (div_mono hb hd h) with hlt | heq
  · calc nearest a b ≤ a / b + 1 := nearest_le_div a b
      _ ≤ c / d := hlt
      _ ≤ nearest c d := div_le_nearest c d
  · have hrest : a % b * d ≤ c % d * b := by
      have ha := congrArg (· * d) (Nat.div_add_mod a b)
      have hc := congrArg (· * b) (Nat.div_add_mod c d)
      have hm : b * (a / b) * d = d * (c / d) * b := by
        rw [heq, Nat.mul_right_comm, Nat.mul_right_comm d, Nat.mul_comm b d]
      simp only [Nat.add_mul] at ha hc
      omega
    have hle : b ≤ 2 * (a % b) → d ≤ 2 * (c % d) := fun hr => by
      have hm := Nat.mul_le_mul_right d hr
      rw [Nat.mul_assoc] at hm
      refine Nat.le_of_mul_le_mul_left ?_ hb
      rw [Nat.mul_left_comm, Nat.mul_comm b (c % d)]
      omega
    have hlt : b < 2 * (a % b) → d < 2 * (c % d) := fun hr => by
      have hm := Nat.mul_lt_mul_of_pos_right hr hd
      rw [Nat.mul_assoc] at hm
      refine Nat.lt_of_mul_lt_mul_left (a := b) ?_
      rw [Nat.mul_left_comm, Nat.mul_comm b (c % d)]
      omega
    simp only [nearest, heq]
    split_ifs <;> omega

/-! ## Codes -/

variable (f : Format)

/-- The octave of a quotient; below the first one the steps are as small. -/
def octave (num den : Nat) : Nat := Nat.log2 (num * f.unit / den) - f.fractionBits

/-- The multiple of the steps of its octave that is nearest to a quotient. -/
def significand (num den : Nat) : Nat := nearest (num * f.unit) (den * 2 ^ f.octave num den)

theorem round_eq (num den : Nat) : f.round num den
    = min (f.octave num den * 2 ^ f.fractionBits + f.significand num den) f.infinity := rfl

theorem log2_mono {m n : Nat} (h : m ≤ n) : m.log2 ≤ n.log2 := by
  rcases Nat.eq_zero_or_pos m with rfl | hm
  · exact Nat.zero_le _
  · exact (Nat.le_log2 (by omega)).2 (Nat.le_trans (Nat.log2_self_le (by omega)) h)

theorem octave_mono {a b c d : Nat} (hb : 0 < b) (hd : 0 < d) (h : a * d ≤ c * b) :
    f.octave a b ≤ f.octave c d := by
  refine Nat.sub_le_sub_right (log2_mono (div_mono hb hd ?_)) _
  rw [Nat.mul_right_comm, Nat.mul_right_comm c]
  exact Nat.mul_le_mul_right _ h

/-- In the steps of its octave a quotient has a whole part of one bit more than the fraction. -/
theorem quotient_lt (num den : Nat) :
    num * f.unit / (den * 2 ^ f.octave num den) < 2 ^ (f.fractionBits + 1) := by
  have hq : num * f.unit / den < 2 ^ (f.fractionBits + 1) * 2 ^ f.octave num den := by
    rw [← Nat.pow_add]
    refine Nat.lt_of_lt_of_le Nat.lt_log2_self (Nat.pow_le_pow_right (by decide) ?_)
    simp only [octave]
    omega
  have hd := (Nat.div_lt_iff_lt_mul (Nat.two_pow_pos _)).2 hq
  rwa [Nat.div_div_eq_div_mul] at hd

theorem le_quotient {num den : Nat} (h : 0 < f.octave num den) :
    2 ^ f.fractionBits ≤ num * f.unit / (den * 2 ^ f.octave num den) := by
  have hl : f.fractionBits + f.octave num den = (num * f.unit / den).log2 := by
    simp only [octave] at h ⊢
    omega
  have hq : 2 ^ f.fractionBits * 2 ^ f.octave num den ≤ num * f.unit / den := by
    rw [← Nat.pow_add, hl]
    refine Nat.log2_self_le fun h0 => ?_
    simp [octave, h0] at h
  have hd := (Nat.le_div_iff_mul_le (Nat.two_pow_pos _)).2 hq
  rwa [Nat.div_div_eq_div_mul] at hd

/-- A significand has one bit more than the fraction, or is the next power of two. -/
theorem significand_le (num den : Nat) : f.significand num den ≤ 2 ^ (f.fractionBits + 1) :=
  Nat.le_trans (nearest_le_div _ _) (f.quotient_lt num den)

theorem le_significand {num den : Nat} (h : 0 < f.octave num den) :
    2 ^ f.fractionBits ≤ f.significand num den :=
  Nat.le_trans (f.le_quotient h) (div_le_nearest _ _)

theorem round_mono {a b c d : Nat} (hb : 0 < b) (hd : 0 < d) (h : a * d ≤ c * b) :
    f.round a b ≤ f.round c d := by
  rw [round_eq, round_eq]
  refine min_le_min_right _ ?_
  rcases Nat.lt_or_eq_of_le (f.octave_mono hb hd h) with hlt | heq
  · -- the lower octave ends where the upper one starts, or before
    have hs := f.significand_le a b
    have hc := f.le_significand (Nat.zero_lt_of_lt hlt)
    have hm := Nat.mul_le_mul_right (2 ^ f.fractionBits) hlt
    rw [Nat.succ_mul] at hm
    rw [Nat.pow_succ] at hs
    omega
  · have hn : f.significand a b ≤ f.significand c d := by
      unfold significand
      rw [heq]
      have hp := Nat.two_pow_pos (f.octave c d)
      refine nearest_mono (Nat.mul_pos hb hp) (Nat.mul_pos hd hp) ?_
      calc a * f.unit * (d * 2 ^ f.octave c d) = a * d * (f.unit * 2 ^ f.octave c d) :=
            Nat.mul_mul_mul_comm _ _ _ _
        _ ≤ c * b * (f.unit * 2 ^ f.octave c d) := Nat.mul_le_mul_right _ h
        _ = c * f.unit * (b * 2 ^ f.octave c d) := Nat.mul_mul_mul_comm _ _ _ _
    rw [heq]
    exact Nat.add_le_add_left hn _

theorem infinity_add : f.infinity + 2 ^ f.fractionBits = 2 ^ f.width := by
  rw [infinity, width, Nat.pow_add, ← Nat.succ_mul, Nat.succ_eq_add_one,
    Nat.sub_add_cancel (Nat.two_pow_pos _), Nat.mul_comm]

theorem infinity_lt : f.infinity < 2 ^ f.width := by
  have hp := Nat.two_pow_pos f.fractionBits
  have ha := f.infinity_add
  omega

theorem round_le_infinity (num den : Nat) : f.round num den ≤ f.infinity := Nat.min_le_right _ _

theorem unit_pos : 0 < f.unit := Nat.two_pow_pos _

theorem steps_lt (code : Nat) :
    f.steps code < 2 ^ f.fractionBits * 2 ^ (code / 2 ^ f.fractionBits) := by
  have hf := Nat.mod_lt code (Nat.two_pow_pos f.fractionBits)
  simp only [steps]
  split
  · rename_i h0
    rwa [h0, Nat.pow_zero, Nat.mul_one]
  · rename_i h0
    obtain ⟨e, he⟩ := Nat.exists_eq_succ_of_ne_zero h0
    rw [he, Nat.succ_sub_one, Nat.pow_succ', ← Nat.mul_assoc]
    exact Nat.mul_lt_mul_of_pos_right (by omega) (Nat.two_pow_pos e)

theorem le_steps {code : Nat} (h : code / 2 ^ f.fractionBits ≠ 0) :
    2 ^ f.fractionBits * 2 ^ (code / 2 ^ f.fractionBits - 1) ≤ f.steps code := by
  simp only [steps]
  rw [if_neg h]
  exact Nat.mul_le_mul_right _ (Nat.le_add_right _ _)

/-- A greater code stands for a greater number. -/
theorem steps_strictMono : StrictMono f.steps := by
  intro m n h
  rcases Nat.lt_or_eq_of_le (Nat.div_le_div_right (c := 2 ^ f.fractionBits) h.le) with hlt | heq
  · have h0 := Nat.ne_zero_of_lt hlt
    calc f.steps m < 2 ^ f.fractionBits * 2 ^ (m / 2 ^ f.fractionBits) := f.steps_lt m
      _ ≤ 2 ^ f.fractionBits * 2 ^ (n / 2 ^ f.fractionBits - 1) :=
          Nat.mul_le_mul_left _ (Nat.pow_le_pow_right (by decide) (Nat.le_sub_one_of_lt hlt))
      _ ≤ f.steps n := f.le_steps h0
  · have hm := Nat.div_add_mod m (2 ^ f.fractionBits)
    have hn := Nat.div_add_mod n (2 ^ f.fractionBits)
    have hf : m % 2 ^ f.fractionBits < n % 2 ^ f.fractionBits := by
      rw [heq] at hm
      omega
    simp only [steps, heq]
    split
    · exact hf
    · exact Nat.mul_lt_mul_of_pos_right (Nat.add_lt_add_left hf _) (Nat.two_pow_pos _)

theorem steps_mono {m n : Nat} (h : m ≤ n) : f.steps m ≤ f.steps n :=
  f.steps_strictMono.monotone h

end Format

namespace Floating

variable {f : Format}

/-- The number that a finite code stands for, with its sign. -/
def toRat (x : Floating f) : Rat := (if x.negative then -1 else 1) * (f.steps x.code / f.unit)

theorem code_ofRatio (negative : Bool) (num den : Nat) :
    (ofRatio negative num den : Floating f).code = f.round num den :=
  Nat.mod_eq_of_lt (Nat.lt_of_le_of_lt (f.round_le_infinity num den) f.infinity_lt)

theorem code_ofNat_mono {m n : Nat} (h : m ≤ n) :
    (ofNat m : Floating f).code ≤ (ofNat n : Floating f).code := by
  rw [ofNat, ofNat, code_ofRatio, code_ofRatio]
  exact f.round_mono Nat.one_pos Nat.one_pos (Nat.mul_le_mul_right 1 h)

theorem isFinite_one : (ofNat 1 : Double).isFinite = true := by decide +kernel

theorem steps_one : Format.binary64.steps (ofNat 1 : Double).code = Format.binary64.unit := by
  decide +kernel

/-- Dividing by what is not smaller gives at most one, rounded or not. -/
theorem code_div_le_one {x y : Floating f} (hy : 0 < f.steps y.code) (h : x.code ≤ y.code) :
    (x.div y).code ≤ (ofNat 1 : Floating f).code := by
  rw [div, ofNat, code_ofRatio, code_ofRatio]
  refine f.round_mono hy Nat.one_pos ?_
  rw [Nat.mul_one, Nat.one_mul]
  exact f.steps_mono h

/-- A number between zero and one. -/
def InUnit (x : Floating f) : Prop := x.isFinite = true ∧ 0 ≤ x.toRat ∧ x.toRat ≤ 1

theorem inUnit_of_code_le {x : Double} (hs : x.negative = false)
    (h : x.code ≤ (ofNat 1 : Double).code) : x.InUnit := by
  have hu := Format.steps_mono Format.binary64 h
  rw [steps_one] at hu
  have hr : (0 : Rat) < (Format.binary64.unit : Rat) := Nat.cast_pos.2 (Format.unit_pos _)
  refine ⟨?_, ?_, ?_⟩
  · have h1 := isFinite_one
    simp only [isFinite, decide_eq_true_eq] at h1 ⊢
    exact Nat.lt_of_le_of_lt h h1
  · rw [toRat, hs]
    simp only [Bool.false_eq_true, if_false, one_mul]
    exact div_nonneg (Nat.cast_nonneg _) hr.le
  · rw [toRat, hs]
    simp only [Bool.false_eq_true, if_false, one_mul]
    rw [div_le_one hr]
    exact Nat.cast_le.2 hu

/-- The double nearest to a quotient of whole numbers is in the unit interval if the quotient is. -/
theorem inUnit_div_ofNat {m n : Nat} (hn : 0 < n) (h : m ≤ n) :
    ((ofNat m : Double).div (ofNat n)).InUnit := by
  have hs : Format.binary64.unit ≤ Format.binary64.steps (ofNat n : Double).code := by
    rw [← steps_one]
    exact Format.steps_mono _ (code_ofNat_mono hn)
  refine inUnit_of_code_le rfl (code_div_le_one ?_ (code_ofNat_mono h))
  exact Nat.lt_of_lt_of_le (Format.unit_pos _) hs

end Floating

end BinaryLayout

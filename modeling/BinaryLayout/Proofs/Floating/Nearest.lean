import BinaryLayout.Proofs.Floating.Datum
import Mathlib.Algebra.Order.Ring.Abs

/-!
# Rounding to the nearest number

Next below a quotient and next above it stand two codes, and no code lies between them
(`steps_le_or_le`). The rounded code is the nearer of the two, of equally near ones the even one, so
no number of the format is nearer to the quotient (`dist_round_le`), also among those with the other
sign (`isNearest_ofRatio`). A quotient that is a number of the format is rounded to itself
(`toRat_ofRatio`), and so is an integer of no more bits than a significand (`toRat_ofInt`).
-/

namespace BinaryLayout

namespace Format

/-! ## Whole numbers -/

/-- No multiple of `m` is nearer to `a`, and one that is as near is the same or `nearest a m` is
even. -/
theorem nearest_dist {a m k : Nat} (hm : 0 < m) (h : k ≤ a / m * m ∨ (a / m + 1) * m ≤ k) :
    ((nearest a m * m : Nat) - a : Int).natAbs ≤ ((k : Nat) - a : Int).natAbs ∧
      (((k : Nat) - a : Int).natAbs = ((nearest a m * m : Nat) - a : Int).natAbs →
        k = nearest a m * m ∨ nearest a m % 2 = 0) := by
  have hd := Nat.div_add_mod' a m
  have hr := Nat.mod_lt a hm
  rw [Nat.succ_mul] at h
  rcases Nat.lt_trichotomy (2 * (a % m)) m with hlt | heq | hgt
  · have hn : nearest a m = a / m := by rw [nearest, if_pos hlt]
    rw [hn]
    omega
  · have hn : nearest a m = a / m + a / m % 2 := by
      rw [nearest, if_neg heq.not_lt, if_neg heq.not_gt]
    rcases Nat.mod_two_eq_zero_or_one (a / m) with h2 | h2
    · rw [hn, h2, Nat.add_zero]
      omega
    · rw [hn, h2, Nat.succ_mul]
      omega
  · have hn : nearest a m = a / m + 1 := by rw [nearest, if_neg hgt.asymm, if_pos hgt]
    rw [hn, Nat.succ_mul]
    omega

variable (f : Format)

/-! ## Codes and their steps -/

theorem steps_of_lt {e r : Nat} (hr : r < 2 ^ f.fractionBits) :
    f.steps (e * 2 ^ f.fractionBits + r)
      = if e = 0 then r else (2 ^ f.fractionBits + r) * 2 ^ (e - 1) := by
  have hp := Nat.two_pow_pos f.fractionBits
  have he : (e * 2 ^ f.fractionBits + r) / 2 ^ f.fractionBits = e := by
    rw [Nat.mul_comm, Nat.mul_add_div hp, Nat.div_eq_of_lt hr, Nat.add_zero]
  rw [steps, he, Nat.mul_add_mod', Nat.mod_eq_of_lt hr]

theorem steps_zero : f.steps 0 = 0 := by
  rw [steps, Nat.zero_div, if_pos rfl, Nat.zero_mod]

/-- The code of a significand in an octave. A significand that is the next power of two gives the
code with which the octave above starts. -/
theorem steps_add {o s : Nat} (hs : s ≤ 2 ^ (f.fractionBits + 1))
    (ho : o = 0 ∨ 2 ^ f.fractionBits ≤ s) : f.steps (o * 2 ^ f.fractionBits + s) = s * 2 ^ o := by
  have hp := Nat.two_pow_pos f.fractionBits
  rw [Nat.pow_succ] at hs
  rcases Nat.lt_or_ge s (2 ^ f.fractionBits) with hlt | hge
  · obtain rfl : o = 0 := ho.resolve_right (Nat.not_le.2 hlt)
    rw [f.steps_of_lt hlt, if_pos rfl, Nat.pow_zero, Nat.mul_one]
  · obtain ⟨r, rfl⟩ := Nat.exists_eq_add_of_le hge
    rcases Nat.lt_or_ge r (2 ^ f.fractionBits) with hr | hr
    · have hsum : o * 2 ^ f.fractionBits + (2 ^ f.fractionBits + r)
          = (o + 1) * 2 ^ f.fractionBits + r := by
        rw [Nat.succ_mul, Nat.add_assoc]
      rw [hsum, f.steps_of_lt hr, if_neg (Nat.succ_ne_zero o), Nat.add_sub_cancel]
    · obtain rfl : r = 2 ^ f.fractionBits := by omega
      have hsum : o * 2 ^ f.fractionBits + (2 ^ f.fractionBits + 2 ^ f.fractionBits)
          = (o + 2) * 2 ^ f.fractionBits + 0 := by
        rw [Nat.add_mul, Nat.two_mul, Nat.add_zero]
      rw [hsum, f.steps_of_lt hp, if_neg (Nat.succ_ne_zero (o + 1)), Nat.add_zero, ← Nat.two_mul,
        Nat.mul_comm 2, Nat.mul_assoc, ← Nat.pow_succ']
      rfl

/-- Whole numbers of no more bits than a significand are numbers of the format, in all octaves that
reach down to its steps. -/
theorem exists_steps_eq {m j : Nat} (hm : m ≤ 2 ^ (f.fractionBits + 1)) (hj : f.fractionBits ≤ j) :
    ∃ code, f.steps code = m * 2 ^ j := by
  rcases Nat.lt_or_eq_of_le hm with hlt | rfl
  · rcases Nat.eq_zero_or_pos m with rfl | hpos
    · exact ⟨0, by rw [f.steps_zero, Nat.zero_mul]⟩
    · have hk : m.log2 ≤ f.fractionBits := Nat.lt_succ_iff.1 ((Nat.log2_lt hpos.ne').2 hlt)
      have hlow := Nat.log2_self_le hpos.ne'
      have hhigh := Nat.lt_log2_self (n := m)
      -- the significand is shifted up until its first bit is the leading one
      have hs : m * 2 ^ (f.fractionBits - m.log2) ≤ 2 ^ (f.fractionBits + 1) := by
        calc m * 2 ^ (f.fractionBits - m.log2)
            ≤ 2 ^ (m.log2 + 1) * 2 ^ (f.fractionBits - m.log2) := Nat.mul_le_mul_right _ hhigh.le
          _ = 2 ^ (f.fractionBits + 1) := by rw [← Nat.pow_add]; congr 1; omega
      have hl : 2 ^ f.fractionBits ≤ m * 2 ^ (f.fractionBits - m.log2) := by
        calc 2 ^ f.fractionBits = 2 ^ m.log2 * 2 ^ (f.fractionBits - m.log2) := by
              rw [← Nat.pow_add]; congr 1; omega
          _ ≤ m * 2 ^ (f.fractionBits - m.log2) := Nat.mul_le_mul_right _ hlow
      refine ⟨_, (f.steps_add (o := j - (f.fractionBits - m.log2)) hs (.inr hl)).trans ?_⟩
      rw [Nat.mul_assoc, ← Nat.pow_add]
      congr 2
      omega
  · have hl : 2 ^ f.fractionBits ≤ 2 ^ (f.fractionBits + 1) :=
      Nat.pow_le_pow_right (by decide) (Nat.le_succ _)
    exact ⟨_, f.steps_add (o := j) (Nat.le_refl _) (.inr hl)⟩

/-! ## Rounding -/

variable {f} {num den : Nat}

theorem round_of_lt (h : f.round num den < f.infinity) :
    f.round num den = f.octave num den * 2 ^ f.fractionBits + f.significand num den := by
  rw [round_eq] at h ⊢
  exact Nat.min_eq_left ((min_lt_iff.1 h).resolve_right (Nat.lt_irrefl _)).le

theorem steps_round (h : f.round num den < f.infinity) :
    f.steps (f.round num den) = f.significand num den * 2 ^ f.octave num den := by
  rw [round_of_lt h]
  exact f.steps_add (f.significand_le num den)
    ((Nat.eq_zero_or_pos _).imp_right f.le_significand)

/-- Codes stand on one side or the other of a quotient, which lies between its whole part in the
steps of its octave and the next multiple of them. -/
theorem steps_le_or_le (num den code : Nat) :
    f.steps code ≤ num * f.unit / (den * 2 ^ f.octave num den) * 2 ^ f.octave num den ∨
      (num * f.unit / (den * 2 ^ f.octave num den) + 1) * 2 ^ f.octave num den
        ≤ f.steps code := by
  have hq := f.quotient_lt num den
  have ho : f.octave num den = 0 ∨
      2 ^ f.fractionBits ≤ num * f.unit / (den * 2 ^ f.octave num den) :=
    (Nat.eq_zero_or_pos _).imp_right f.le_quotient
  rw [← f.steps_add hq.le ho, ← f.steps_add hq (ho.imp_right Nat.le_succ_of_le)]
  exact (Nat.lt_or_ge code _).imp (fun h => f.steps_mono (Nat.le_of_lt_succ h)) f.steps_mono

/-- No number of the format is nearer to a quotient than the significand in the steps of its octave,
and one that is as near is the same or the significand is even. -/
theorem dist_significand_le (hd : 0 < den) (code : Nat) :
    ((f.significand num den * (den * 2 ^ f.octave num den) : Nat)
          - (num * f.unit : Nat) : Int).natAbs
        ≤ ((f.steps code * den : Nat) - (num * f.unit : Nat) : Int).natAbs ∧
      (((f.steps code * den : Nat) - (num * f.unit : Nat) : Int).natAbs
          = ((f.significand num den * (den * 2 ^ f.octave num den) : Nat)
              - (num * f.unit : Nat) : Int).natAbs →
        f.steps code * den = f.significand num den * (den * 2 ^ f.octave num den) ∨
          f.significand num den % 2 = 0) := by
  refine nearest_dist (Nat.mul_pos hd (Nat.two_pow_pos _)) ?_
  rw [Nat.mul_comm den (2 ^ f.octave num den), ← Nat.mul_assoc, ← Nat.mul_assoc,
    Nat.mul_comm (2 ^ f.octave num den) den]
  exact (steps_le_or_le num den code).imp (Nat.mul_le_mul_right den) (Nat.mul_le_mul_right den)

/-- No number of the format is nearer to a quotient than the one it is rounded to, and one that is
as near is the same or the rounded code is even. -/
theorem dist_round_le (hd : 0 < den) (hf : 0 < f.fractionBits)
    (h : f.round num den < f.infinity) (code : Nat) :
    ((f.steps (f.round num den) * den : Nat) - (num * f.unit : Nat) : Int).natAbs
        ≤ ((f.steps code * den : Nat) - (num * f.unit : Nat) : Int).natAbs ∧
      (((f.steps code * den : Nat) - (num * f.unit : Nat) : Int).natAbs
          = ((f.steps (f.round num den) * den : Nat) - (num * f.unit : Nat) : Int).natAbs →
        f.steps code = f.steps (f.round num den) ∨ f.round num den % 2 = 0) := by
  have hr : f.steps (f.round num den) * den
      = f.significand num den * (den * 2 ^ f.octave num den) := by
    rw [steps_round h, Nat.mul_assoc, Nat.mul_comm den]
  have he : f.round num den % 2 = f.significand num den % 2 := by
    have hp := dvd_mul_of_dvd_right (dvd_pow_self 2 hf.ne') (f.octave num den)
    rw [round_of_lt h]
    omega
  obtain ⟨hle, htie⟩ := dist_significand_le hd code
  rw [he, hr]
  exact ⟨hle, fun heq => (htie heq).imp_left fun hk =>
    Nat.eq_of_mul_eq_mul_right hd (hk.trans hr.symm)⟩

/-- A quotient that is a number of the format is rounded to the code of this number. -/
theorem round_eq_of_steps (hd : 0 < den) {code : Nat} (h : f.steps code * den = num * f.unit) :
    f.round num den = min code f.infinity := by
  have hle := (@dist_significand_le f num den hd code).1
  have hs : f.significand num den * 2 ^ f.octave num den = f.steps code := by
    rw [h, Nat.mul_left_comm] at hle
    refine Nat.eq_of_mul_eq_mul_left hd ?_
    rw [Nat.mul_comm den (f.steps code)]
    omega
  have hc : f.octave num den * 2 ^ f.fractionBits + f.significand num den = code := by
    refine f.steps_strictMono.injective ?_
    rw [f.steps_add (f.significand_le num den) ((Nat.eq_zero_or_pos _).imp_right f.le_significand),
      hs]
  rw [round_eq, hc]

theorem round_steps (f : Format) (code : Nat) :
    f.round (f.steps code) f.unit = min code f.infinity :=
  round_eq_of_steps f.unit_pos rfl

theorem abs_div_sub_div {a b c d : Nat} (hb : 0 < b) (hd : 0 < d) :
    |(a : Rat) / b - (c : Rat) / d|
      = ((a * d : Nat) - (c * b : Nat) : Int).natAbs / ((b * d : Nat) : Rat) := by
  have hb' : (0 : Rat) < b := Nat.cast_pos.2 hb
  have hd' : (0 : Rat) < d := Nat.cast_pos.2 hd
  rw [div_sub_div _ _ hb'.ne' hd'.ne', abs_div, abs_of_pos (mul_pos hb' hd'), Nat.cast_natAbs]
  push_cast
  rw [mul_comm (b : Rat) c]

theorem abs_sub_round_le (hd : 0 < den) (hf : 0 < f.fractionBits)
    (h : f.round num den < f.infinity) (code : Nat) :
    |(f.steps (f.round num den) : Rat) / f.unit - (num : Rat) / den|
        ≤ |(f.steps code : Rat) / f.unit - (num : Rat) / den| ∧
      (|(f.steps code : Rat) / f.unit - (num : Rat) / den|
          = |(f.steps (f.round num den) : Rat) / f.unit - (num : Rat) / den| →
        f.steps code = f.steps (f.round num den) ∨ f.round num den % 2 = 0) := by
  have hu := f.unit_pos
  have hp : (0 : Rat) < ((f.unit * den : Nat) : Rat) := Nat.cast_pos.2 (Nat.mul_pos hu hd)
  rw [abs_div_sub_div hu hd, abs_div_sub_div hu hd, div_le_div_iff_of_pos_right hp,
    div_left_inj' hp.ne', Nat.cast_le, Nat.cast_inj]
  exact dist_round_le hd hf h code

end Format

namespace Floating

variable {f : Format}

/-- Of all numbers of the format `x` is the nearest to `q`, and of two that are equally near the one
with the even significand. -/
def IsNearest (x : Floating f) (q : Rat) : Prop :=
  ∃ r, f.datum x.bits = .number r ∧
    ∀ (y : Floating f) (s : Rat), f.datum y.bits = .number s →
      |r - q| ≤ |s - q| ∧ (|s - q| = |r - q| → s = r ∨ Even (f.mantissa x.bits))

theorem even_mantissa_iff (hf : 0 < f.fractionBits) (x : Floating f) :
    Even (f.mantissa x.bits) ↔ x.code % 2 = 0 := by
  have hp : 2 ∣ 2 ^ f.fractionBits := dvd_pow_self 2 hf.ne'
  rw [Nat.even_iff, Format.mantissa, fractionField_bits]
  split
  · rw [Nat.mod_mod_of_dvd _ hp]
  · rw [Nat.add_mod, Nat.mod_mod_of_dvd _ hp, Nat.mod_eq_zero_of_dvd hp, Nat.zero_add, Nat.mod_mod]

theorem abs_sign_mul_sub (b : Bool) (p q : Rat) :
    |(if b then -1 else 1) * p - (if b then -1 else 1) * q| = |p - q| := by
  cases b
  · simp only [Bool.false_eq_true, if_false, one_mul]
  · simp only [if_true, neg_one_mul, neg_sub_neg, abs_sub_comm]

theorem abs_sign_mul_sub_of_ne {b c : Bool} (h : b ≠ c) {p q : Rat} (hp : 0 ≤ p) (hq : 0 ≤ q) :
    |(if b then -1 else 1) * p - (if c then -1 else 1) * q| = p + q := by
  rw [← abs_of_nonneg (add_nonneg hp hq)]
  cases b <;> cases c
  · exact absurd rfl h
  · simp only [Bool.false_eq_true, if_false, if_true, one_mul, neg_one_mul, sub_neg_eq_add]
  · simp only [Bool.false_eq_true, if_false, if_true, one_mul, neg_one_mul, ← neg_add', abs_neg]
  · exact absurd rfl h

variable (negative : Bool) {num den : Nat}

theorem isFinite_ofRatio (h : f.round num den < f.infinity) :
    (ofRatio negative num den : Floating f).isFinite = true := by
  rwa [isFinite, decide_eq_true_eq, code_ofRatio]

theorem toRat_ofRatio_eq : (ofRatio negative num den : Floating f).toRat
    = (if negative then -1 else 1) * (f.steps (f.round num den) / f.unit) := by
  rw [toRat, code_ofRatio]
  rfl

theorem isNearest_ofRatio (he : 2 ≤ f.exponentBits) (hf : 0 < f.fractionBits) (hd : 0 < den)
    (h : f.round num den < f.infinity) :
    (ofRatio negative num den : Floating f).IsNearest
      ((if negative then -1 else 1) * (num / den)) := by
  refine ⟨_, datum_of_isFinite he (isFinite_ofRatio negative h), fun y s hy => ?_⟩
  obtain ⟨-, rfl⟩ := (datum_eq_number_iff he).1 hy
  rw [even_mantissa_iff hf, code_ofRatio, toRat_ofRatio_eq, toRat, abs_sign_mul_sub]
  rcases eq_or_ne y.negative negative with hn | hn
  · obtain ⟨hle, htie⟩ := Format.abs_sub_round_le hd hf h y.code
    rw [hn, abs_sign_mul_sub]
    exact ⟨hle, fun heq => (htie heq).imp_left fun hs => by rw [hs]⟩
  · -- zero is nearer than what has the other sign
    obtain ⟨hle, htie⟩ := Format.abs_sub_round_le hd hf h 0
    have hs : 0 ≤ (f.steps y.code : Rat) / f.unit :=
      div_nonneg (Nat.cast_nonneg _) (Nat.cast_nonneg _)
    have hp : 0 ≤ (num : Rat) / den := div_nonneg (Nat.cast_nonneg _) (Nat.cast_nonneg _)
    have h0 : |((f.steps 0 : Nat) : Rat) / f.unit - (num : Rat) / den| = (num : Rat) / den := by
      rw [f.steps_zero, Nat.cast_zero, zero_div, zero_sub, abs_neg, abs_of_nonneg hp]
    rw [h0] at hle htie
    rw [abs_sign_mul_sub_of_ne hn hs hp]
    refine ⟨hle.trans (le_add_of_nonneg_left hs), fun heq => ?_⟩
    have hz : (f.steps y.code : Rat) / f.unit = 0 :=
      hs.antisymm' (nonpos_of_add_le_left (heq.le.trans hle))
    rw [hz, zero_add] at heq
    refine (htie heq).imp_left fun hr => ?_
    rw [hz, ← hr, f.steps_zero, Nat.cast_zero, zero_div, mul_zero, mul_zero]

variable {negative}

/-- A quotient that is a number of the format is rounded to itself. -/
theorem toRat_ofRatio (hd : 0 < den) (h : f.round num den < f.infinity) {code : Nat}
    (hc : f.steps code * den = num * f.unit) :
    (ofRatio negative num den : Floating f).toRat = (if negative then -1 else 1) * (num / den) := by
  have hr := Format.round_eq_of_steps hd hc
  rw [hr] at h
  rw [toRat_ofRatio_eq, hr, min_eq_left ((min_lt_iff.1 h).resolve_right (Nat.lt_irrefl _)).le]
  congr 1
  rw [div_eq_div_iff (Nat.cast_ne_zero.2 f.unit_pos.ne') (Nat.cast_ne_zero.2 hd.ne')]
  exact_mod_cast hc

/-! ## Integers -/

theorem sign_mul_natAbs (z : Int) :
    (if decide (z < 0) then -1 else 1) * ((z.natAbs : Rat) / (1 : Nat)) = z := by
  rw [Nat.cast_one, div_one, Nat.cast_natAbs]
  rcases lt_or_ge z 0 with h | h
  · rw [decide_eq_true h, if_pos rfl, abs_of_neg h, Int.cast_neg, neg_mul_neg, one_mul]
  · rw [decide_eq_false h.not_gt, if_neg Bool.false_ne_true, abs_of_nonneg h, one_mul]

theorem isNearest_ofInt (he : 2 ≤ f.exponentBits) (hf : 0 < f.fractionBits) {z : Int}
    (h : f.round z.natAbs 1 < f.infinity) : (ofInt z : Floating f).IsNearest z := by
  have hn := isNearest_ofRatio (decide (z < 0)) he hf Nat.one_pos h
  rwa [sign_mul_natAbs] at hn

theorem toRat_ofInt {z : Int} (h : f.round z.natAbs 1 < f.infinity)
    (hz : z.natAbs ≤ 2 ^ (f.fractionBits + 1)) : (ofInt z : Floating f).toRat = z := by
  obtain ⟨code, hc⟩ := f.exists_steps_eq hz
    (Nat.le_add_left f.fractionBits (2 ^ (f.exponentBits - 1) - 2))
  rw [← sign_mul_natAbs z]
  exact toRat_ofRatio Nat.one_pos h ((Nat.mul_one _).trans hc)

end Floating

end BinaryLayout

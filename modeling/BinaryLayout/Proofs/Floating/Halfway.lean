import BinaryLayout.Proofs.Floating.Conversion
import Mathlib.Tactic.Linarith
import Mathlib.Tactic.Ring

/-!
# Rounding twice

A quotient between two neighbouring codes goes to the one on its side of their midpoint, and the
midpoint goes to the even one (`round_le_iff`). A format with at least one bit more has these
midpoints among its numbers (`exists_steps_midpoint`), so rounding to it first never takes a
quotient across one. It may take it onto one, and from there the even code is reached, whichever
side the quotient was on. So the two roundings give something else than one rounding only if the
first one ends halfway between two neighbours and the even one of them is the farther one from the
quotient (`exists_midpoint_of_round_ne`).

In terms of what bits denote this is `Format.TieAway`, and what is rounded there is then no nearest
number (`isNearest_convert_iff`).
-/

namespace BinaryLayout

namespace Format

variable {f g : Format} {num den : Nat}

/-! ## Midpoints -/

/-- The codes up to a given one are those of quotients below the midpoint to the next code, and of
the midpoint itself if the code is even. -/
theorem round_le_iff (hd : 0 < den) (hf : 0 < f.fractionBits) (h : f.round num den < f.infinity)
    (code : Nat) : f.round num den ≤ code ↔
      2 * (num * f.unit) < (f.steps code + f.steps (code + 1)) * den ∨
        2 * (num * f.unit) = (f.steps code + f.steps (code + 1)) * den ∧ code % 2 = 0 := by
  have hlt : f.steps code * den < f.steps (code + 1) * den :=
    Nat.mul_lt_mul_of_pos_right (f.steps_strictMono (Nat.lt_succ_self code)) hd
  rw [Nat.add_mul]
  constructor
  · intro hle
    have hs := Nat.mul_le_mul_right den (f.steps_mono hle)
    obtain ⟨hdist, htie⟩ := dist_round_le hd hf h (code + 1)
    rcases Nat.lt_trichotomy (2 * (num * f.unit))
      (f.steps code * den + f.steps (code + 1) * den) with hm | hm | hm
    · exact .inl hm
    · have heq : f.steps (f.round num den) * den = f.steps code * den := by omega
      have hc : f.round num den = code :=
        f.steps_strictMono.injective (Nat.eq_of_mul_eq_mul_right hd heq)
      rcases htie (by omega) with h0 | h0
      · rw [h0, heq] at hlt
        exact absurd hlt (Nat.lt_irrefl _)
      · exact .inr ⟨hm, hc ▸ h0⟩
    · omega
  · intro hm
    by_contra hle
    have hgt : code + 1 ≤ f.round num den := Nat.not_le.1 hle
    have hs := Nat.mul_le_mul_right den (f.steps_mono hgt)
    obtain ⟨hdist, htie⟩ := dist_round_le hd hf h code
    rcases hm with hm | ⟨hm, heven⟩
    · omega
    · have heq : f.steps (f.round num den) * den = f.steps (code + 1) * den := by omega
      have hc : f.round num den = code + 1 :=
        f.steps_strictMono.injective (Nat.eq_of_mul_eq_mul_right hd heq)
      rcases htie (by omega) with h0 | h0
      · rw [h0, heq] at hlt
        exact absurd hlt (Nat.lt_irrefl _)
      · omega

/-- There is room in `g` for one more bit of a fraction than in `f`, also at the least numbers. -/
structure Refines (f g : Format) : Prop where
  fractionBits_lt : f.fractionBits < g.fractionBits
  octaves : ∃ j, g.fractionBits ≤ j ∧ g.unit = 2 * f.unit * 2 ^ j

theorem refines_binary64 : Refines .binary32 .binary64 where
  fractionBits_lt := by decide
  octaves := ⟨924, by decide, by decide +kernel⟩

/-- Every code is a significand in an octave. -/
theorem exists_octave (f : Format) (code : Nat) : ∃ octave significand,
    code = octave * 2 ^ f.fractionBits + significand ∧
      significand < 2 ^ (f.fractionBits + 1) ∧
      (octave = 0 ∨ 2 ^ f.fractionBits ≤ significand) := by
  have hp := Nat.two_pow_pos f.fractionBits
  have hd := Nat.div_add_mod' code (2 ^ f.fractionBits)
  have hr := Nat.mod_lt code hp
  rw [Nat.pow_succ]
  rcases he : code / 2 ^ f.fractionBits with _ | o
  · rw [he] at hd
    exact ⟨0, code, by omega, by omega, .inl rfl⟩
  · rw [he, Nat.succ_mul] at hd
    exact ⟨o, 2 ^ f.fractionBits + code % 2 ^ f.fractionBits, by omega, by omega, .inr (by omega)⟩

/-- The midpoints of a format are numbers of a finer one. -/
theorem exists_steps_midpoint (hw : f.Refines g) (code : Nat) :
    ∃ middle, 2 * (g.steps middle * f.unit) = (f.steps code + f.steps (code + 1)) * g.unit := by
  obtain ⟨j, hj, hu⟩ := hw.octaves
  obtain ⟨o, s, rfl, hs, ho⟩ := f.exists_octave code
  have hb : 2 * s + 1 ≤ 2 ^ (g.fractionBits + 1) := by
    have hp := Nat.pow_le_pow_right (by decide : 0 < 2) (Nat.succ_le_succ hw.fractionBits_lt)
    rw [Nat.pow_succ] at hp
    omega
  obtain ⟨middle, hm⟩ := g.exists_steps_eq hb (Nat.le_add_left_of_le hj : g.fractionBits ≤ o + j)
  refine ⟨middle, ?_⟩
  rw [hm, hu, Nat.add_assoc, f.steps_add hs.le ho,
    f.steps_add (s := s + 1) hs (ho.imp_right Nat.le_succ_of_le), Nat.pow_add]
  ring

/-- In the steps of the finer format a quotient is compared with one of its numbers. -/
theorem round_le_iff_of_midpoint (hd : 0 < den) (hf : 0 < f.fractionBits)
    (h : f.round num den < f.infinity) {code middle : Nat}
    (hm : 2 * (middle * f.unit) = (f.steps code + f.steps (code + 1)) * g.unit) :
    f.round num den ≤ code ↔
      num * g.unit < middle * den ∨ num * g.unit = middle * den ∧ code % 2 = 0 := by
  have hl : 2 * (num * f.unit) * g.unit = 2 * f.unit * (num * g.unit) := by ring
  have hr : (f.steps code + f.steps (code + 1)) * den * g.unit = 2 * f.unit * (middle * den) := by
    rw [Nat.mul_right_comm, ← hm]
    ring
  have hp : 0 < 2 * f.unit := Nat.mul_pos Nat.two_pos f.unit_pos
  rw [round_le_iff hd hf h, ← Nat.mul_lt_mul_right (a := g.unit) g.unit_pos,
    ← Nat.mul_left_inj g.unit_pos.ne', hl, hr, Nat.mul_lt_mul_left hp, Nat.mul_right_inj hp.ne']

/-! ## The wider format first -/

/-- No number of the format lies between a quotient and what it is rounded to. -/
theorem steps_round_le (hd : 0 < den) {code : Nat} (h : num * g.unit ≤ g.steps code * den) :
    g.steps (g.round num den) ≤ g.steps code := by
  refine g.steps_mono ((g.round_mono hd g.unit_pos h).trans ?_)
  rw [round_steps]
  exact min_le_left _ _

theorem le_steps_round (hd : 0 < den) (hg : g.round num den < g.infinity) {code : Nat}
    (h : g.steps code * den ≤ num * g.unit) : g.steps code ≤ g.steps (g.round num den) := by
  have hr := g.round_mono g.unit_pos hd h
  rw [round_steps] at hr
  exact g.steps_mono ((min_le_iff.1 hr).resolve_right hg.not_ge)

/-- Two roundings that differ from one have been halfway between two neighbouring codes, and the
quotient is on the side of the odd one. -/
theorem exists_midpoint_of_round_ne (hw : f.Refines g) (hd : 0 < den) (hf : 0 < f.fractionBits)
    (hg : g.round num den < g.infinity) (h : f.round num den < f.infinity)
    (ht : f.round (g.steps (g.round num den)) g.unit < f.infinity)
    (hne : f.round (g.steps (g.round num den)) g.unit ≠ f.round num den) :
    ∃ code, code + 1 < f.infinity ∧
      2 * (g.steps (g.round num den) * f.unit) = (f.steps code + f.steps (code + 1)) * g.unit ∧
      (code % 2 = 0 ∧ g.steps (g.round num den) * den < num * g.unit ∨
        code % 2 = 1 ∧ num * g.unit < g.steps (g.round num den) * den) := by
  have hone {code middle : Nat} := @round_le_iff_of_midpoint f g _ _ hd hf h code middle
  have htwo {code middle : Nat} := @round_le_iff_of_midpoint f g _ _ g.unit_pos hf ht code middle
  simp only [Nat.mul_lt_mul_right g.unit_pos, Nat.mul_left_inj g.unit_pos.ne'] at htwo
  rcases Nat.lt_or_gt_of_ne hne with hlt | hgt
  · generalize hc : f.round (g.steps (g.round num den)) g.unit = code at hlt
    obtain ⟨middle, hm⟩ := exists_steps_midpoint hw code
    have hle := (htwo hm).1 hc.le
    have hnot := not_or.1 (mt (hone hm).2 hlt.not_ge)
    have hmid := le_steps_round hd hg (Nat.le_of_not_lt hnot.1)
    have heq : g.steps (g.round num den) = g.steps middle := by omega
    refine ⟨code, Nat.lt_of_le_of_lt hlt h, heq ▸ hm, .inl ?_⟩
    rw [heq] at hle ⊢
    omega
  · generalize hc : f.round num den = code at hgt
    obtain ⟨middle, hm⟩ := exists_steps_midpoint hw code
    have hle := (hone hm).1 hc.le
    have hnot := not_or.1 (mt (htwo hm).2 hgt.not_ge)
    have hmid := steps_round_le hd (hle.elim Nat.le_of_lt fun h0 => h0.1.le)
    have heq : g.steps (g.round num den) = g.steps middle := by omega
    refine ⟨code, Nat.lt_of_le_of_lt hgt ht, heq ▸ hm, .inr ?_⟩
    rw [heq] at hnot ⊢
    omega

/-- Halfway between two neighbours among the numbers of the format is `d`, and `q` is nearer to the
one with the odd significand. -/
def TieAway (f : Format) (d q : Rat) : Prop :=
  ∃ (x y : Floating f) (a b : Rat), f.datum x.bits = .number a ∧ f.datum y.bits = .number b ∧
    Even (f.mantissa x.bits) ∧ ¬Even (f.mantissa y.bits) ∧
    (∀ (w : Floating f) (c : Rat), f.datum w.bits = .number c → c ≤ a ∧ c ≤ b ∨ a ≤ c ∧ b ≤ c) ∧
    d = (a + b) / 2 ∧ |b - q| < |a - q|

theorem not_tieAway_self (q : Rat) : ¬f.TieAway q q := by
  rintro ⟨x, y, a, b, -, -, -, -, -, rfl, hlt⟩
  have hb : b - (a + b) / 2 = -(a - (a + b) / 2) := by ring
  rw [hb, abs_neg] at hlt
  exact lt_irrefl _ hlt

end Format

namespace Floating

variable {f g : Format} {d q : Rat}

/-! ## In terms of what bits denote -/

theorem abs_toRat (x : Floating f) : |x.toRat| = (f.steps x.code : Rat) / f.unit := by
  have hp : (0 : Rat) ≤ f.steps x.code / f.unit :=
    div_nonneg (Nat.cast_nonneg _) (Nat.cast_nonneg _)
  have hs := abs_sign_mul_sub x.negative (f.steps x.code / f.unit) 0
  rwa [mul_zero, sub_zero, sub_zero, abs_of_nonneg hp] at hs

theorem code_eq_of_datum_eq (he : 2 ≤ f.exponentBits) {x y : Floating f} {a : Rat}
    (hx : f.datum x.bits = .number a) (hy : f.datum y.bits = .number a) : x.code = y.code := by
  obtain ⟨-, hx⟩ := (datum_eq_number_iff he).1 hx
  obtain ⟨-, hy⟩ := (datum_eq_number_iff he).1 hy
  have ha := congrArg abs (hx.trans hy.symm)
  rw [abs_toRat, abs_toRat, div_left_inj' (Nat.cast_ne_zero.2 f.unit_pos.ne'), Nat.cast_inj] at ha
  exact f.steps_strictMono.injective ha

/-- The number nearest to a tie is the even one of the two neighbours, and the odd one is nearer to
what lies on its side. -/
theorem not_isNearest_of_tieAway (he : 2 ≤ f.exponentBits) (hf : 0 < f.fractionBits)
    {t : Floating f} (ht : t.IsNearest d) (h : f.TieAway d q) : ¬t.IsNearest q := by
  obtain ⟨r, hr, hd⟩ := ht
  obtain ⟨x, y, a, b, hx, hy, hxe, hyo, hgap, rfl, hlt⟩ := h
  rintro ⟨s, hs, hq⟩
  obtain rfl : r = s := Datum.number.inj (hr.symm.trans hs)
  obtain ⟨hle, htie⟩ := hd x a hx
  have ha : a - (a + b) / 2 = (a - b) / 2 := by ring
  have hends : r = a ∨ r = b := by
    rw [ha, abs_div, abs_two, abs_le] at hle
    rcases le_total a b with hab | hab
    · rw [abs_of_nonpos (sub_nonpos.2 hab)] at hle
      rcases hgap t r hr with h0 | h0
      · exact .inl (by linarith)
      · exact .inr (by linarith)
    · rw [abs_of_nonneg (sub_nonneg.2 hab)] at hle
      rcases hgap t r hr with h0 | h0
      · exact .inr (by linarith)
      · exact .inl (by linarith)
  rcases hends with rfl | rfl
  · exact (hq y b hy).1.not_gt hlt
  · have hb : r - (a + r) / 2 = -((a - r) / 2) := by ring
    rw [ha, hb, abs_neg] at htie
    rcases htie rfl with h0 | h0
    · rw [h0] at hlt
      exact lt_irrefl _ hlt
    · rw [even_mantissa_iff hf, code_eq_of_datum_eq he hr hy, ← even_mantissa_iff hf] at h0
      exact hyo h0

variable (negative : Bool) {num den : Nat}

/-- No number of the format is between two neighbours. -/
theorem le_or_le_of_datum (he : 2 ≤ f.exponentBits) (code : Nat) {w : Floating f} {c : Rat}
    (hw : f.datum w.bits = .number c) :
    c ≤ (if negative then -1 else 1) * ((f.steps code : Rat) / f.unit) ∧
        c ≤ (if negative then -1 else 1) * ((f.steps (code + 1) : Rat) / f.unit) ∨
      (if negative then -1 else 1) * ((f.steps code : Rat) / f.unit) ≤ c ∧
        (if negative then -1 else 1) * ((f.steps (code + 1) : Rat) / f.unit) ≤ c := by
  obtain ⟨-, rfl⟩ := (datum_eq_number_iff he).1 hw
  have hmono {m n : Nat} (h : m ≤ n) : (f.steps m : Rat) / f.unit ≤ f.steps n / f.unit :=
    div_le_div_of_nonneg_right (Nat.cast_le.2 (f.steps_mono h)) (Nat.cast_nonneg _)
  have hzero (m : Nat) : (0 : Rat) ≤ f.steps m / f.unit :=
    div_nonneg (Nat.cast_nonneg _) (Nat.cast_nonneg _)
  -- without the sign of the neighbours, a number of the other sign is below both
  have hside : (if negative then -1 else 1) * w.toRat ≤ (f.steps code : Rat) / f.unit ∨
      (f.steps (code + 1) : Rat) / f.unit ≤ (if negative then -1 else 1) * w.toRat := by
    have h0 := hzero code
    have hw0 := hzero w.code
    have hcode := (Nat.lt_or_ge code w.code).symm.imp hmono hmono
    rw [toRat]
    cases negative <;> cases w.negative <;>
      simp only [Bool.false_eq_true, if_false, if_true, one_mul, neg_one_mul, neg_neg]
    · exact hcode
    · exact .inl (by linarith)
    · exact .inl (by linarith)
    · exact hcode
  have hstep := hmono (Nat.le_succ code)
  cases negative <;>
    simp only [Bool.false_eq_true, if_false, if_true, one_mul, neg_one_mul] at hside ⊢
  · exact hside.imp (fun h => ⟨h, h.trans hstep⟩) fun h => ⟨hstep.trans h, h⟩
  · exact hside.symm.imp (fun h => ⟨by linarith, by linarith⟩) fun h => ⟨by linarith, by linarith⟩

theorem code_ofCode {code : Nat} (hc : code < f.infinity) :
    (ofCode negative code : Floating f).code = code :=
  Nat.mod_eq_of_lt (hc.trans f.infinity_lt)

theorem datum_ofCode (he : 2 ≤ f.exponentBits) {code : Nat} (hc : code < f.infinity) :
    f.datum (ofCode negative code : Floating f).bits
      = .number ((if negative then -1 else 1) * (f.steps code / f.unit)) := by
  refine (datum_eq_number_iff he).2 ⟨?_, ?_⟩
  · rwa [isFinite, decide_eq_true_eq, code_ofCode negative hc]
  · rw [toRat, code_ofCode negative hc]
    rfl

/-- Beyond the middle of two numbers the second one is nearer. -/
theorem abs_sub_lt_abs_sub {a b r : Rat} (h : 0 < (b - a) * (r - (a + b) / 2)) :
    |b - r| < |a - r| := by
  refine sq_lt_sq.1 ?_
  linarith [show (a - r) ^ 2 - (b - r) ^ 2 = 2 * ((b - a) * (r - (a + b) / 2)) by ring]

theorem tieAway_of_midpoint (he : 2 ≤ f.exponentBits) (hf : 0 < f.fractionBits) {code : Nat}
    (hc : code + 1 < f.infinity) {m r : Rat}
    (hm : m = ((f.steps code : Rat) / f.unit + (f.steps (code + 1) : Rat) / f.unit) / 2)
    (hr : code % 2 = 0 ∧ m < r ∨ code % 2 = 1 ∧ r < m) :
    f.TieAway ((if negative then -1 else 1) * m) ((if negative then -1 else 1) * r) := by
  have hc0 : code < f.infinity := (Nat.lt_succ_self code).trans hc
  have hlt : (f.steps code : Rat) / f.unit < f.steps (code + 1) / f.unit :=
    div_lt_div_of_pos_right (Nat.cast_lt.2 (f.steps_strictMono (Nat.lt_succ_self code)))
      (Nat.cast_pos.2 f.unit_pos)
  have hd0 := datum_ofCode negative he hc0
  have hd1 := datum_ofCode negative he hc
  have he0 := even_mantissa_iff hf (ofCode negative code)
  have he1 := even_mantissa_iff hf (ofCode negative (code + 1))
  rw [code_ofCode negative hc0] at he0
  rw [code_ofCode negative hc] at he1
  subst hm
  rcases hr with ⟨h0, hr⟩ | ⟨h1, hr⟩
  · refine ⟨_, _, _, _, hd0, hd1, he0.2 h0, mt he1.1 (by omega),
      fun w c hw => le_or_le_of_datum negative he code hw, by ring, ?_⟩
    rw [abs_sign_mul_sub, abs_sign_mul_sub]
    exact abs_sub_lt_abs_sub (mul_pos (sub_pos.2 hlt) (sub_pos.2 hr))
  · refine ⟨_, _, _, _, hd1, hd0, he1.2 (by omega), mt he0.1 (by omega),
      fun w c hw => (le_or_le_of_datum negative he code hw).imp And.symm And.symm, by ring, ?_⟩
    rw [abs_sign_mul_sub, abs_sign_mul_sub]
    refine abs_sub_lt_abs_sub (mul_pos_of_neg_of_neg (sub_neg.2 hlt) ?_)
    rwa [add_comm, sub_neg]

/-! ## Converting what was rounded -/

section Twice

variable (hw : f.Refines g) (he : 2 ≤ f.exponentBits) (hf : 0 < f.fractionBits) (hd : 0 < den)
  (hg : g.round num den < g.infinity)
  (ht : f.round (g.steps (g.round num den)) g.unit < f.infinity)

include hg in
theorem convert_ofRatio : ((ofRatio negative num den : Floating g).convert : Floating f)
    = ofRatio negative (g.steps (g.round num den)) g.unit := by
  rw [convert_of_isFinite (isFinite_ofRatio negative hg), code_ofRatio]
  rfl

include he hf hg ht in
/-- The second rounding is to the nearest number from where the first one ended. -/
theorem isNearest_convert : ((ofRatio negative num den : Floating g).convert : Floating f).IsNearest
    (ofRatio negative num den : Floating g).toRat := by
  rw [convert_ofRatio negative hg, toRat_ofRatio_eq]
  exact isNearest_ofRatio negative he hf g.unit_pos ht

variable (h : f.round num den < f.infinity)
include hw he hf hd hg ht h

/-- Two roundings are as good as one, except from a tie away from the quotient. -/
theorem tieAway_of_convert_ne
    (hne : ((ofRatio negative num den : Floating g).convert : Floating f)
      ≠ ofRatio negative num den) :
    f.TieAway (ofRatio negative num den : Floating g).toRat
      ((if negative then -1 else 1) * (num / den)) := by
  have hr : f.round (g.steps (g.round num den)) g.unit ≠ f.round num den := fun heq => by
    refine hne (ext (negative_convert _) ?_)
    rw [convert_ofRatio negative hg, code_ofRatio, code_ofRatio, heq]
  obtain ⟨code, hc, hm, hside⟩ := Format.exists_midpoint_of_round_ne hw hd hf hg h ht hr
  have hu : (0 : Rat) < f.unit := Nat.cast_pos.2 f.unit_pos
  have hv : (0 : Rat) < g.unit := Nat.cast_pos.2 g.unit_pos
  have hn : (0 : Rat) < den := Nat.cast_pos.2 hd
  rw [toRat_ofRatio_eq]
  refine tieAway_of_midpoint negative he hf hc ?_ (hside.imp (And.imp_right fun hlt => ?_)
    (And.imp_right fun hlt => ?_))
  · rw [← add_div, div_div, div_eq_div_iff hv.ne' (mul_pos hu two_pos).ne']
    have hmq := congrArg (Nat.cast : Nat → Rat) hm
    push_cast at hmq
    linarith
  · rw [div_lt_div_iff₀ hv hn]
    exact_mod_cast hlt
  · rw [div_lt_div_iff₀ hn hv]
    exact_mod_cast hlt

theorem convert_ofRatio_eq_iff :
    ((ofRatio negative num den : Floating g).convert : Floating f) = ofRatio negative num den ↔
      ¬f.TieAway (ofRatio negative num den : Floating g).toRat
        ((if negative then -1 else 1) * (num / den)) := by
  refine ⟨fun heq htie => ?_, fun htie => ?_⟩
  · refine not_isNearest_of_tieAway he hf (isNearest_convert negative he hf hg ht) htie ?_
    rw [heq]
    exact isNearest_ofRatio negative he hf hd h
  · by_contra hne
    exact htie (tieAway_of_convert_ne negative hw he hf hd hg ht h hne)

theorem isNearest_convert_iff :
    ((ofRatio negative num den : Floating g).convert : Floating f).IsNearest
        ((if negative then -1 else 1) * (num / den)) ↔
      ¬f.TieAway (ofRatio negative num den : Floating g).toRat
        ((if negative then -1 else 1) * (num / den)) := by
  refine ⟨fun hs htie => ?_, fun htie => ?_⟩
  · exact not_isNearest_of_tieAway he hf (isNearest_convert negative he hf hg ht) htie hs
  · rw [(convert_ofRatio_eq_iff negative hw he hf hd hg ht h).2 htie]
    exact isNearest_ofRatio negative he hf hd h

end Twice

end Floating

end BinaryLayout

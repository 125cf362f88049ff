import BinaryLayout.Proofs.Floating.Order

/-!
# What bit patterns denote

A bit pattern of a format has a sign, an exponent field and a fraction field. It denotes a rational
number, a significand with a sign times a power of two, or an infinity, or no number
(`Format.datum`). The bits of a floating-point number denote what it is: if it is finite, the number
of its steps over the steps in one (`datum_eq_number_iff`).
-/

namespace BinaryLayout

/-- What a bit pattern stands for. The two zeros are one number. -/
inductive Datum
  | number (q : Rat)
  | infinity (negative : Bool)
  | nan
  deriving DecidableEq

namespace Format

variable (f : Format)

def fractionField (bits : Nat) : Nat := bits % 2 ^ f.fractionBits

def exponentField (bits : Nat) : Nat := bits / 2 ^ f.fractionBits % 2 ^ f.exponentBits

def signField (bits : Nat) : Bool := bits / 2 ^ f.width % 2 = 1

/-- The exponent field of one. -/
def bias : Nat := 2 ^ (f.exponentBits - 1) - 1

/-- The significand as a whole number: the fraction field behind a leading one, which is left out
where the exponent field is zero. -/
def mantissa (bits : Nat) : Nat :=
  if f.exponentField bits = 0 then f.fractionField bits
  else 2 ^ f.fractionBits + f.fractionField bits

/-- Without its sign, what bits with an exponent field below the greatest one denote: the
significand, with the point behind its first bit, times two to the power of the exponent. -/
def magnitude (bits : Nat) : Rat :=
  (f.mantissa bits * 2 ^ max (f.exponentField bits) 1 : Nat) /
    (2 ^ (f.bias + f.fractionBits) : Nat)

/-- The greatest exponent field is that of infinities and of what is no number. -/
def datum (bits : Nat) : Datum :=
  if f.exponentField bits = 2 ^ f.exponentBits - 1 then
    if f.fractionField bits = 0 then .infinity (f.signField bits) else .nan
  else .number ((if f.signField bits then -1 else 1) * f.magnitude bits)

end Format

namespace Floating

variable {f : Format} (x : Floating f)

/-! ## The fields of a number -/

theorem fractionField_bits : f.fractionField x.bits = x.code % 2 ^ f.fractionBits := by
  rw [Format.fractionField, bits, Format.width, Nat.pow_add]
  split
  · rw [Nat.mul_add_mod]
  · rw [Nat.zero_add]

theorem exponent_lt : x.code / 2 ^ f.fractionBits < 2 ^ f.exponentBits := by
  have hc := x.code_lt
  rw [Format.width, Nat.pow_add] at hc
  exact Nat.div_lt_of_lt_mul hc

theorem exponentField_bits : f.exponentField x.bits = x.code / 2 ^ f.fractionBits := by
  have hl := x.exponent_lt
  rw [Format.exponentField, bits, Format.width, Nat.pow_add]
  split
  · rw [Nat.mul_add_div (Nat.two_pow_pos _), Nat.add_mod_left, Nat.mod_eq_of_lt hl]
  · rw [Nat.zero_add, Nat.mod_eq_of_lt hl]

theorem signField_bits : f.signField x.bits = x.negative := by
  have hd := Nat.div_eq_of_lt x.code_lt
  rw [Format.signField, bits]
  cases x.negative
  · simp [hd]
  · simp [Nat.add_div_left _ (Nat.two_pow_pos f.width), hd]

theorem steps_code : f.steps x.code
    = f.mantissa x.bits * 2 ^ (max (f.exponentField x.bits) 1 - 1) := by
  rw [Format.mantissa, exponentField_bits, fractionField_bits, Format.steps]
  split
  · rename_i h0
    rw [h0]
    exact (Nat.mul_one _).symm
  · rename_i h0
    rw [Nat.max_eq_left (Nat.pos_of_ne_zero h0)]

theorem magnitude_bits (he : 2 ≤ f.exponentBits) :
    f.magnitude x.bits = (f.steps x.code : Rat) / f.unit := by
  have hb : 2 ≤ 2 ^ (f.exponentBits - 1) :=
    Nat.le_self_pow (Nat.sub_ne_zero_of_lt he) 2
  have hp : 2 ^ max (f.exponentField x.bits) 1 * f.unit
      = 2 ^ (max (f.exponentField x.bits) 1 - 1) * 2 ^ (f.bias + f.fractionBits) := by
    rw [Format.unit, Format.bias, ← Nat.pow_add, ← Nat.pow_add]
    congr 1
    omega
  have hs : ((2 ^ (f.bias + f.fractionBits) : Nat) : Rat) ≠ 0 :=
    Nat.cast_ne_zero.2 (Nat.two_pow_pos (f.bias + f.fractionBits)).ne'
  rw [Format.magnitude, steps_code, div_eq_div_iff hs (Nat.cast_ne_zero.2 f.unit_pos.ne'),
    ← Nat.cast_mul, ← Nat.cast_mul, Nat.mul_assoc, hp, Nat.mul_assoc]

/-! ## Numbers, infinities and what is neither -/

theorem isFinite_iff : x.isFinite = true ↔ f.exponentField x.bits ≠ 2 ^ f.exponentBits - 1 := by
  have hl := x.exponent_lt
  rw [exponentField_bits, isFinite, decide_eq_true_eq, Format.infinity,
    ← Nat.div_lt_iff_lt_mul (Nat.two_pow_pos _)]
  omega

theorem isInfinite_iff : x.isInfinite = true ↔
    f.exponentField x.bits = 2 ^ f.exponentBits - 1 ∧ f.fractionField x.bits = 0 := by
  have hd := Nat.div_add_mod x.code (2 ^ f.fractionBits)
  rw [exponentField_bits, fractionField_bits, isInfinite, decide_eq_true_eq, Format.infinity]
  constructor
  · intro h
    rw [h, Nat.mul_div_cancel _ (Nat.two_pow_pos _), Nat.mul_mod_left]
    exact ⟨rfl, rfl⟩
  · rintro ⟨he, hf⟩
    rw [← hd, he, hf, Nat.add_zero, Nat.mul_comm]

variable {x}

theorem not_isNaN_of_isFinite (h : x.isFinite = true) : ¬x.isNaN = true := by
  simp only [isFinite, isNaN, decide_eq_true_eq] at h ⊢
  exact h.asymm

theorem not_isNaN_of_isInfinite (h : x.isInfinite = true) : ¬x.isNaN = true := by
  simp only [isInfinite, isNaN, decide_eq_true_eq] at h ⊢
  exact Nat.not_lt.2 h.le

theorem datum_of_isFinite (he : 2 ≤ f.exponentBits) (h : x.isFinite = true) :
    f.datum x.bits = .number x.toRat := by
  rw [Format.datum, if_neg (x.isFinite_iff.1 h), signField_bits, x.magnitude_bits he, toRat]

theorem datum_of_isInfinite (h : x.isInfinite = true) :
    f.datum x.bits = .infinity x.negative := by
  obtain ⟨he, hf⟩ := x.isInfinite_iff.1 h
  rw [Format.datum, if_pos he, if_pos hf, signField_bits]

theorem datum_of_isNaN (h : x.isNaN = true) : f.datum x.bits = .nan := by
  have he := not_not.1 (mt x.isFinite_iff.2 fun hf => not_isNaN_of_isFinite hf h)
  rw [Format.datum, if_pos he,
    if_neg fun h0 => not_isNaN_of_isInfinite (x.isInfinite_iff.2 ⟨he, h0⟩) h]

/-- Every number is finite, infinite or not a number at all. -/
theorem isFinite_or (x : Floating f) :
    x.isFinite = true ∨ x.isInfinite = true ∨ x.isNaN = true := by
  simp only [isFinite, isInfinite, isNaN, decide_eq_true_eq]
  exact Nat.lt_trichotomy x.code f.infinity

theorem datum_eq_number_iff (he : 2 ≤ f.exponentBits) {q : Rat} :
    f.datum x.bits = .number q ↔ x.isFinite = true ∧ x.toRat = q := by
  constructor
  · intro h
    rcases x.isFinite_or with hx | hx | hx
    · rw [datum_of_isFinite he hx] at h
      exact ⟨hx, Datum.number.inj h⟩
    · rw [datum_of_isInfinite hx] at h
      cases h
    · rw [datum_of_isNaN hx] at h
      cases h
  · rintro ⟨hx, rfl⟩
    exact datum_of_isFinite he hx

end Floating

end BinaryLayout

import BinaryLayout.Floating.Format

/-!
# Floating-point numbers

A sign and a code, kept as they are for every bit pattern, those of NaNs included. Conversions
between the formats, from integers and to integers, and the arithmetic on finite numbers round an
exact result once.
-/

namespace BinaryLayout

structure Floating (f : Format) where
  negative : Bool
  code : Nat
  code_lt : code < 2 ^ f.width
  deriving DecidableEq

abbrev Double := Floating .binary64

abbrev Single := Floating .binary32

namespace Floating

variable {f g : Format}

/-- The lowest bits of `code` with a sign. -/
def ofCode (negative : Bool) (code : Nat) : Floating f :=
  ⟨negative, code % 2 ^ f.width, Nat.mod_lt _ (Nat.two_pow_pos _)⟩

def ofBits (n : Nat) : Floating f := ofCode (n / 2 ^ f.width % 2 == 1) n

def bits (x : Floating f) : Nat := (if x.negative then 2 ^ f.width else 0) + x.code

theorem ofBits_bits (x : Floating f) : ofBits x.bits = x := by
  obtain ⟨negative, code, hc⟩ := x
  have hw := Nat.two_pow_pos f.width
  cases negative
  · simp [ofBits, bits, ofCode, Nat.mod_eq_of_lt hc, Nat.div_eq_of_lt hc]
  · simp [ofBits, bits, ofCode, Nat.mod_eq_of_lt hc, Nat.add_div_left _ hw, Nat.div_eq_of_lt hc]

theorem bits_ofBits {n : Nat} (h : n < 2 ^ (f.width + 1)) : (ofBits n : Floating f).bits = n := by
  have hw := Nat.two_pow_pos f.width
  have hd : n / 2 ^ f.width < 2 := Nat.div_lt_of_lt_mul (by rwa [← Nat.pow_succ])
  have hm := Nat.div_add_mod n (2 ^ f.width)
  rcases Nat.lt_succ_iff_lt_or_eq.1 hd with h0 | h1
  · rw [Nat.lt_one_iff] at h0
    simpa [ofBits, bits, ofCode, h0] using hm
  · simpa [ofBits, bits, ofCode, h1] using hm

def zero : Floating f := ofCode false 0

def neg (x : Floating f) : Floating f := { x with negative := !x.negative }

def isNaN (x : Floating f) : Bool := f.infinity < x.code

def isInfinite (x : Floating f) : Bool := x.code = f.infinity

def isFinite (x : Floating f) : Bool := x.code < f.infinity

def isZero (x : Floating f) : Bool := x.code = 0

/-- The number nearest to `num / den`, with a sign of its own. -/
def ofRatio (negative : Bool) (num den : Nat) : Floating f := ofCode negative (f.round num den)

def ofNat (n : Nat) : Floating f := ofRatio false n 1

def ofInt (n : Int) : Floating f := ofRatio (n < 0) n.natAbs 1

/-- The number nearest to `x` in another format. A NaN keeps its sign and as much of its payload
as there is room for, and becomes quiet. -/
def convert (x : Floating f) : Floating g :=
  if x.isNaN then
    let payload := x.code % 2 ^ f.fractionBits * 2 ^ g.fractionBits / 2 ^ f.fractionBits
    ofCode x.negative (g.infinity + (payload ||| g.quietBit))
  else if x.isInfinite then ofCode x.negative g.infinity
  else ofRatio x.negative (f.steps x.code) f.unit

/-- The whole part of the absolute value; of infinity, a number above every finite one. -/
def truncate (x : Floating f) : Nat := f.steps x.code / f.unit

/-- The whole part as a 64-bit pattern, clamped to `[-2 ^ 63, 2 ^ 64 - 1]`; a NaN gives zero. -/
def toWord (x : Floating f) : UInt64 :=
  if x.isNaN then 0
  else if x.negative then -UInt64.ofNat (min x.truncate (2 ^ 63))
  else UInt64.ofNat (min x.truncate (2 ^ 64 - 1))

/-- Equality of numbers: the two zeros are equal, a NaN equals nothing. -/
def agrees (x y : Floating f) : Bool :=
  !x.isNaN && !y.isNaN && (x == y || x.isZero && y.isZero)

/-- The product of finite numbers. -/
def mul (x y : Floating f) : Floating f :=
  ofRatio (x.negative != y.negative) (f.steps x.code * f.steps y.code) (f.unit * f.unit)

/-- The quotient of finite numbers, of which the second is not zero. -/
def div (x y : Floating f) : Floating f :=
  ofRatio (x.negative != y.negative) (f.steps x.code) (f.steps y.code)

end Floating

end BinaryLayout
